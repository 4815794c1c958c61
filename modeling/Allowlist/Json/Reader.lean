import Allowlist.Json.Lexeme

/-!
# Json.Reader — documents of a wanted form from JSON text

The text is read once, from left to right, and each part is held against the wanted form as soon as
it is read.  So of two errors the one that stands first in the text is reported, whether it is an
error of the text or of the form.  An error of the form that concerns a whole record is reported
where the record ends, as far as it can be read.
-/

namespace Allowlist.Json

namespace Read

/-- Fails because of the form. -/
def misfit {α : Type} (cause : Mismatch) : Read α :=
  fail (.mismatch cause)

/-! ### Lists -/

/-- Whether another item follows; if so, the comma before it is read. -/
def nextItem (first : Bool) : Read Bool := do
  match ← peekToken with
  | none => failAhead .endOfList
  | some ']' => return false
  | some c =>
    if first then return true
    if c != ',' then failAhead .expectedListEnd
    skip
    match ← peekToken with
    | some ']' => failAhead .trailingComma
    | some _ => return true
    | none => failAhead .endOfValue

/-- Reads the end of a list. -/
def endList : Read Unit := do
  match ← peekToken with
  | some ']' => skip
  | some ',' =>
    skip
    match ← peekToken with
    | some ']' => failAhead .trailingComma
    | _ => failAhead .trailingCharacters
  | some _ => failAhead .trailingCharacters
  | none => failAhead .endOfList

/-- Reads the end of a list as far as it is there, and fails. -/
def misfitList {α : Type} (cause : Mismatch) : Read α := do
  match ← peekToken with
  | some ']' => skip
  | some ',' => do
    skip
    let _ ← peekToken
  | _ => return ← misfit cause
  misfit cause

/-- The items up to the end of the list; `fuel` bounds their number. -/
def items (item : Read Data) : (fuel : Nat) → (first : Bool) → Read (List Data)
  | 0, _ => failAhead .endOfList
  | fuel + 1, first => do
    if ← nextItem first then
      let data ← item
      return data :: (← items item fuel false)
    else return []

/-! ### Objects -/

/-- Whether another member follows; if so, all before the quote of its name is read. -/
def nextKey (first : Bool) : Read Bool := do
  match ← peekToken with
  | none => failAhead .endOfObject
  | some '\x7d' => return false
  | some c =>
    if first then
      if c == '"' then return true else failAhead .keyMustBeString
    else if c != ',' then failAhead .expectedObjectEnd
    else
      skip
      match ← peekToken with
      | some '"' => return true
      | some '\x7d' => failAhead .trailingComma
      | some _ => failAhead .keyMustBeString
      | none => failAhead .endOfValue

/-- Reads the colon after a name. -/
def colon : Read Unit := do
  match ← peekToken with
  | some ':' => skip
  | some _ => failAhead .expectedColon
  | none => failAhead .endOfObject

/-- Reads the end of an object. -/
def endObject : Read Unit := do
  match ← peekToken with
  | some '\x7d' => skip
  | some ',' => failAhead .trailingComma
  | some _ => failAhead .trailingCharacters
  | none => failAhead .endOfObject

/-- Reads the end of an object if it is there, and fails. -/
def misfitObject {α : Type} (cause : Mismatch) : Read α := do
  if (← peekToken) == some '\x7d' then skip
  misfit cause

/-- The members up to the end of the object, a later one of a name in place of an earlier one;
`fuel` bounds their number. -/
def members (value : Read Data) : (fuel : Nat) → (first : Bool) → List (String × Data) →
    Read (List (String × Data))
  | 0, _, _ => failAhead .endOfObject
  | fuel + 1, first, present => do
    if ← nextKey first then
      skip
      let name ← string
      colon
      let data ← value
      members value fuel false (Keyed.insert name data present)
    else return present

/-! ### Any value -/

/-- A value of any form; `fuel` bounds its depth, and the number of parts of each part. -/
def anyValue : (fuel : Nat) → Read Data
  | 0 => failAhead .expectedValue
  | fuel + 1 => do
    match ← peekToken with
    | none => failAhead .endOfValue
    | some 'n' => skip; word ['u', 'l', 'l']; return .null
    | some 't' => skip; word ['r', 'u', 'e']; return .bool true
    | some 'f' => skip; word ['a', 'l', 's', 'e']; return .bool false
    | some '-' => skip; number true
    | some '"' => skip; return .text (← string)
    | some '[' =>
      skip
      let all ← items (anyValue fuel) fuel true
      endList
      return .list all
    | some '\x7b' =>
      skip
      let all ← members (anyValue fuel) fuel true []
      endObject
      return .object all
    | some c => if c.isDigit then number false else failAhead .expectedValue

/-- Fails because of a value of the wrong type.  Words, numbers and strings are read to name them in
the error; lists and objects are not. -/
def wrongType {α : Type} (expected : String) : Read α := do
  match ← peek with
  | some '[' => misfit (.wrongType (Data.list []).describe expected)
  | some '\x7b' => misfit (.wrongType (Data.object []).describe expected)
  | _ =>
    let data ← anyValue 1
    misfit (.wrongType data.describe expected)

/-! ### Wanted forms -/

/-- The members of a record up to its end.  `field?` reads the value of a known field; `fuel` bounds
the number of members. -/
def fields (closed : Bool) (known : List String) (field? : String → Option (Read Data)) :
    (fuel : Nat) → (first : Bool) → List (String × Data) → Read (List (String × Data))
  | 0, _, _ => failAhead .endOfObject
  | fuel + 1, first, present => do
    if ← nextKey first then
      skip
      let name ← string
      match field? name with
      | some value =>
        if (present.lookup name).isSome then misfitObject (.duplicateField name)
        colon
        let data ← value
        fields closed known field? fuel false (Keyed.insert name data present)
      | none =>
        if closed then misfitObject (.unknownField name known)
        colon
        let _ ← anyValue ((← get).rest.length + 1)
        fields closed known field? fuel false present
    else return present

mutual
/-- A value of the wanted form. -/
def value : Schema → Read Data
  | .any => do anyValue ((← get).rest.length + 1)
  | .text => do
    match ← peekToken with
    | none => failAhead .endOfValue
    | some '"' => skip; return .text (← string)
    | some _ => wrongType Schema.text.expected
  | .bool => do
    match ← peekToken with
    | none => failAhead .endOfValue
    | some 't' => skip; word ['r', 'u', 'e']; return .bool true
    | some 'f' => skip; word ['a', 'l', 's', 'e']; return .bool false
    | some _ => wrongType Schema.bool.expected
  | .optional inner => do
    match ← peekToken with
    | some 'n' => skip; word ['u', 'l', 'l']; return .null
    | _ => value inner
  | .list item => do
    match ← peekToken with
    | none => failAhead .endOfValue
    | some '[' =>
      skip
      let all ← items (value item) ((← get).rest.length + 1) true
      endList
      return .list all
    | some _ => wrongType (Schema.list item).expected
  | .map item => do
    match ← peekToken with
    | none => failAhead .endOfValue
    | some '\x7b' =>
      skip
      let all ← members (value item) ((← get).rest.length + 1) true []
      endObject
      return .object all
    | some _ => wrongType (Schema.map item).expected
  | .record name closed wanted => do
    match ← peekToken with
    | none => failAhead .endOfValue
    | some '\x7b' =>
      skip
      let present ← fields closed (wanted.map Prod.fst) (field? wanted)
        ((← get).rest.length + 1) true []
      match Schema.fillMissing wanted present with
      | .error cause => misfitObject cause
      | .ok all => do
        endObject
        return .object all
    | some '[' =>
      skip
      let all ← positions wanted name wanted.length 0 true
      endList
      return .object (Keyed.ofList all)
    | some _ => wrongType (Schema.record name closed wanted).expected

/-- The reader for the value of the field `name`, if there is such a field. -/
def field? : List (String × Option Data × Schema) → String → Option (Read Data)
  | [], _ => none
  | (field, _, schema) :: rest, name =>
    if field == name then some (value schema) else field? rest name

/-- The items of a list as the fields of the record `owner`, from position `n` of `count` on. -/
def positions : List (String × Option Data × Schema) → (owner : String) → (count n : Nat) →
    (first : Bool) → Read (List (String × Data))
  | [], _, _, _, _ => return []
  | (name, default, schema) :: rest, owner, count, n, first => do
    if ← nextItem first then
      let data ← value schema
      return (name, data) :: (← positions rest owner count (n + 1) false)
    else
      match default with
      | some data => return (name, data) :: (← positions rest owner count (n + 1) first)
      | none => misfitList (.wrongLength n (Schema.expectedLength owner count))
end

end Read

/-- The document of the wanted form that a text writes. -/
def decode (schema : Schema) (text : String) : Except Error Data := do
  let (data, cursor) ← (Read.value schema).run (Cursor.ofText text)
  let (next, cursor) ← Read.peekToken.run cursor
  if next.isSome then throw ⟨.trailingCharacters, cursor.ahead⟩
  return data

end Allowlist.Json
