import Allowlist.Cut
import Allowlist.Values

/-!
# Pairs — values from `key=value` texts

A pair is cut at its first equals sign, so keys hold none and values may.  A form reads a text
without one as a key with an empty value; an argument list refuses it.
-/

namespace Allowlist.Pairs

/-- The key and the value of a pair. -/
def split? (pair : String) : Option (String × String) :=
  (Cut.first? (fun c => if c = '=' then some () else none) pair.toList).map fun (key, _, value) =>
    (String.ofList key, String.ofList value)

/-- The values that the pairs of a form spell. -/
def form (pairs : List String) : Values :=
  Values.ofList (pairs.map fun pair => (split? pair).getD (pair, ""))

/-- The key and the value of an argument; the error is the argument if it is no pair. -/
def ofArgument (argument : String) : Except String (String × String) :=
  match split? argument with
  | some pair => .ok pair
  | none => .error argument

/-- The values that arguments spell; the error is the first argument that is no pair. -/
def ofArguments (arguments : List String) : Except String Values :=
  (arguments.mapM ofArgument).map Values.ofList

end Allowlist.Pairs
