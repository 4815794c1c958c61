import Allowlist.Data.Basic

/-!
# Data.Schema — documents of a wanted form

A schema is the form that a reader wants a document to have: a text, a list, a map, or a record
with named fields.  `Schema.fit` brings a document into that form or says where it does not fit.
A record is read from an object, whose members are visited in order of their names, or from a list,
position by position.  A field with a default may be missing.
-/

namespace Allowlist

/-- A wanted form. -/
inductive Schema where
  | any
  | text
  | bool
  /-- The inner form, or null. -/
  | optional (inner : Schema)
  | list (item : Schema)
  /-- An object with any members, all of one form. -/
  | map (value : Schema)
  /-- Fields in order of declaration, each with the value it has when it is missing, if it may be.
  A closed record admits no other members. -/
  | record (name : String) (closed : Bool) (fields : List (String × Option Data × Schema))

/-- Why a document does not fit. -/
inductive Mismatch where
  | wrongType (found expected : String)
  /-- The value is of a wanted type but makes no sense as one. -/
  | wrongValue (found expected : String)
  | missingField (name : String)
  | unknownField (name : String) (known : List String)
  | duplicateField (name : String)
  | wrongLength (length : Nat) (expected : String)
deriving DecidableEq

namespace Mismatch

/-- Names in backquotes, as alternatives. -/
def oneOf : List String → String
  | [a] => "`" ++ a ++ "`"
  | [a, b] => "`" ++ a ++ "` or `" ++ b ++ "`"
  | names => "one of " ++ ", ".intercalate (names.map fun n => "`" ++ n ++ "`")

def message : Mismatch → String
  | wrongType found expected => "invalid type: " ++ found ++ ", expected " ++ expected
  | wrongValue found expected => "invalid value: " ++ found ++ ", expected " ++ expected
  | missingField name => "missing field `" ++ name ++ "`"
  | unknownField name known => "unknown field `" ++ name ++ "`, " ++
      (if known.isEmpty then "there are no fields" else "expected " ++ oneOf known)
  | duplicateField name => "duplicate field `" ++ name ++ "`"
  | wrongLength length expected =>
    "invalid length " ++ toString length ++ ", expected " ++ expected

end Mismatch

namespace Schema

/-- What an error says was expected. -/
def expected : Schema → String
  | any => "any value"
  | text => "a string"
  | bool => "a boolean"
  | optional inner => inner.expected
  | list _ => "a sequence"
  | map _ => "a map"
  | record name _ _ => "struct " ++ name

/-- What an error says of a record that is read from a list. -/
def expectedLength (name : String) (fields : Nat) : String :=
  "struct " ++ name ++ " with " ++ toString fields ++
    (if fields = 1 then " element" else " elements")

/-- The fields that are missing from `present`, with their defaults. -/
def fillMissing : List (String × Option Data × Schema) → List (String × Data) →
    Except Mismatch (List (String × Data))
  | [], present => .ok present
  | (name, default, _) :: fields, present =>
    match present.lookup name, default with
    | some _, _ => fillMissing fields present
    | none, some value => fillMissing fields (Keyed.insert name value present)
    | none, none => .error (.missingField name)

/-- The members that are fields, each in the form that `field?` gives it. -/
def fitMembers (closed : Bool) (known : List String)
    (field? : String → Data → Except Mismatch (Option Data)) :
    List (String × Data) → Except Mismatch (List (String × Data))
  | [] => .ok []
  | (name, data) :: members => do
    match ← field? name data with
    | some value => return (name, value) :: (← fitMembers closed known field? members)
    | none =>
      if closed then throw (.unknownField name known)
      fitMembers closed known field? members

mutual
/-- The document in the wanted form. -/
def fit : Schema → Data → Except Mismatch Data
  | any, data => .ok data
  | text, .text value => .ok (.text value)
  | bool, .bool value => .ok (.bool value)
  | optional _, .null => .ok .null
  | optional inner, data => fit inner data
  | list item, .list items => (items.mapM (fit item)).map .list
  | map value, .object members =>
    (members.mapM fun member => (fit value member.2).map fun data => (member.1, data)).map .object
  | record _ closed fields, .object members => do
    let present ← fitMembers closed (fields.map Prod.fst) (fitField fields) members
    let all ← fillMissing fields present
    return .object all
  | record name _ fields, .list items => do
    let all ← fitPositions fields name fields.length 0 items
    if fields.length < items.length then
      throw (.wrongLength items.length "fewer elements in array")
    return .object (Keyed.ofList all)
  | schema, data => .error (.wrongType data.describe schema.expected)

/-- The value in the form of the field `name`, if there is such a field. -/
def fitField : List (String × Option Data × Schema) → String → Data →
    Except Mismatch (Option Data)
  | [], _, _ => .ok none
  | (field, _, schema) :: fields, name, data =>
    if field == name then (fit schema data).map some else fitField fields name data

/-- The items in the forms of the fields, one after the other, from position `n` on; `owner` is the
record and `count` the number of all its fields. -/
def fitPositions : List (String × Option Data × Schema) → (owner : String) → (count n : Nat) →
    List Data → Except Mismatch (List (String × Data))
  | [], _, _, _, _ => .ok []
  | (name, _, schema) :: fields, owner, count, n, item :: items => do
    let value ← fit schema item
    return (name, value) :: (← fitPositions fields owner count (n + 1) items)
  | (name, some value, _) :: fields, owner, count, n, [] => do
    return (name, value) :: (← fitPositions fields owner count (n + 1) [])
  | (_, none, _) :: _, owner, count, n, [] => .error (.wrongLength n (expectedLength owner count))
end

end Schema

end Allowlist
