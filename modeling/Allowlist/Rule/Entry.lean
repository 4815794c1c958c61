import Allowlist.Rule.Symbol

/-!
# Rule.Entry — what stands between the commas

A group body is a list of entries, separated by commas; a blank body has none.  An entry is a key,
a key with a group after a colon, or a group alone.  A key is one or more name characters, or one
or more name characters and blanks in single quotes.
-/

namespace Allowlist.Rule

/-- A character that an unquoted key may hold. -/
def isNameChar (c : Char) : Bool :=
  c.isAlphanum || c == '_' || c == '%'

/-- A character that a key in quotes may hold. -/
def isQuotedChar (c : Char) : Bool :=
  isNameChar c || c == ' '

/-- A character that a rule may hold. -/
def isRuleChar (c : Char) : Bool :=
  isQuotedChar c || [',', ':', '\'', '\x7b', '\x7d', '[', ']'].contains c

/-- One entry; groups are given by their reference. -/
inductive Entry where
  | key (name : String)
  | keyed (name : String) (group : Nat)
  | group (index : Nat)
deriving DecidableEq

namespace Entry

/-- The characters of a text without references. -/
def chars? : List Symbol → Option (List Char)
  | [] => some []
  | .char c :: text => (chars? text).map (c :: ·)
  | .group _ :: _ => none

/-- The name that a key spells, without its quotes. -/
def keyName? (chars : List Char) : Option String :=
  match chars with
  | [] => none
  | '\'' :: rest =>
    let inner := rest.takeWhile isQuotedChar
    if inner ≠ [] ∧ rest.dropWhile isQuotedChar = ['\''] then some (String.ofList inner) else none
  | chars => if chars.all isNameChar then some (String.ofList chars) else none

/-- The name that the text spells as a key. -/
def name? (text : List Symbol) : Option String :=
  (chars? text).bind keyName?

/-- The group that the text refers to, if it is one reference and nothing else. -/
def reference? : List Symbol → Option Nat
  | [.group index] => some index
  | _ => none

/-- The entry that a text without surrounding blanks spells. -/
def ofTrimmed? (text : List Symbol) : Option Entry :=
  match Cut.first? (fun s => if s = .char ':' then some () else none) text with
  | some (label, _, target) => do
    let name ← name? (Symbol.trim label)
    let index ← reference? (Symbol.trim target)
    return .keyed name index
  | none =>
    match reference? text with
    | some index => some (.group index)
    | none => (name? text).map .key

/-- The entry between two commas. -/
def ofText (text : List Symbol) : Except Fault Entry :=
  let text := Symbol.trim text
  match ofTrimmed? text with
  | some entry => .ok entry
  | none => .error (.invalidEntry (Symbol.describe text))

/-- The entries of a group body. -/
def ofBody (body : List Symbol) : Except Fault (List Entry) :=
  if Symbol.trim body = [] then .ok [] else (body.splitOn (.char ',')).mapM ofText

end Entry

end Allowlist.Rule
