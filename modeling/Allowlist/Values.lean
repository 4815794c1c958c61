import Allowlist.Keyed
import Allowlist.Outline

/-!
# Values — flattened request data

A multimap from keys to texts.  Keys are kept in sorted order; the values of one key are kept in
the order in which they were appended, and a key that is present has at least one of them once it
was appended to.
-/

namespace Allowlist

/-- Each key once, in increasing order, with its values. -/
structure Values where
  entries : List (String × List String)
deriving DecidableEq

namespace Values

def empty : Values := ⟨[]⟩

/-- Every value under `key`, none when the key is absent. -/
def getAll (values : Values) (key : String) : List String :=
  (values.entries.lookup key).getD []

/-- The first value under `key`. -/
def get? (values : Values) (key : String) : Option String :=
  (values.entries.lookup key).bind List.head?

def contains (values : Values) (key : String) : Bool :=
  (values.entries.lookup key).isSome

def keys (values : Values) : List String :=
  values.entries.map Prod.fst

/-- The number of keys. -/
def size (values : Values) : Nat :=
  values.entries.length

def isEmpty (values : Values) : Bool :=
  values.entries.isEmpty

/-- The values with one more under `key`, after those that it has. -/
def append (values : Values) (key value : String) : Values :=
  ⟨Keyed.insert key (values.getAll key ++ [value]) values.entries⟩

/-- The values with exactly `items` under `key`. -/
def put (values : Values) (key : String) (items : List String) : Values :=
  ⟨Keyed.insert key items values.entries⟩

/-- The pairs appended one after the other to no values. -/
def ofList (pairs : List (String × String)) : Values :=
  pairs.foldl (fun values pair => values.append pair.1 pair.2) empty

/-- One pair for each value, in key order. -/
def toList (values : Values) : List (String × String) :=
  values.entries.flatMap fun (key, items) => items.map fun item => (key, item)

/-- One line `key=value` for each value. -/
def lines (values : Values) : List String :=
  values.toList.map fun (key, value) => key ++ "=" ++ value

def outline (values : Values) : Outline :=
  .record "Values"
    [("entries", .map (values.entries.map fun (key, items) => (.text key, .texts items)))]

end Values

end Allowlist
