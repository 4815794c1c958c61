import Allowlist.Data.Basic
import Allowlist.Path
import Allowlist.Values

/-!
# Document — nested data from flat keys

A key spells steps into a nested document: a text names a member of an object, a number counts an
element of an array, and `[]` appends to an array.  The document is grown key by key, in key order,
as a tree of slots.  Two keys conflict when they want one slot to be two things.  Numbers only
order the elements of an array; gaps are closed, and appended elements follow the counted ones.
-/

namespace Allowlist

/-- One step into a nested document. -/
inductive Step where
  | member (name : String)
  | index (position : Nat)
  | append
deriving DecidableEq

/-- One more than the greatest position that an array can count. -/
def Step.positionBound : Nat := Nat.pow 2 64

/-- The step that a hop spells, unless it is a number that no array can count to. -/
def Hop.step? (hop : Hop) : Option Step :=
  match hop.text? with
  | none => some .append
  | some text =>
    if isDecimal text then
      let position := Nat.ofDigitChars 10 text.toList 0
      if position < Step.positionBound then some (.index position) else none
    else some (.member text)

/-- A part of a document under construction. -/
inductive Slot where
  | empty
  | leaf (items : List String)
  | object (members : List (String × Slot))
  /-- Elements by position, and the texts that follow them. -/
  | array (elements : List (Nat × Slot)) (appended : List String)

namespace Slot

/-- The members of a slot that is an object, or that can become one. -/
def members? : Slot → Option (List (String × Slot))
  | empty => some []
  | object members => some members
  | _ => none

/-- The parts of a slot that is an array, or that can become one. -/
def elements? : Slot → Option (List (Nat × Slot) × List String)
  | empty => some ([], [])
  | array elements appended => some (elements, appended)
  | _ => none

/-- The slot with `items` placed at the end of the steps; `none` when a step does not fit. -/
def place (items : List String) : List Step → Slot → Option Slot
  | [], empty => some (leaf items)
  | [], _ => none
  | .append :: _, slot =>
    slot.elements?.map fun (elements, appended) => array elements (appended ++ items)
  | .index position :: steps, slot => do
    let (elements, appended) ← slot.elements?
    let element ← place items steps ((elements.lookup position).getD empty)
    return array (Keyed.insert position element elements) appended
  | .member name :: steps, slot => do
    let members ← slot.members?
    let member ← place items steps ((members.lookup name).getD empty)
    return object (Keyed.insert name member members)

mutual
/-- The finished document: a leaf with one text is that text, with several their list. -/
def toData : Slot → Data
  | empty => .null
  | leaf [item] => .text item
  | leaf items => .texts items
  | object members => .object (membersData members)
  | array elements appended => .list (elementsData elements ++ appended.map .text)

def membersData : List (String × Slot) → List (String × Data)
  | [] => []
  | (name, slot) :: members => (name, slot.toData) :: membersData members

def elementsData : List (Nat × Slot) → List Data
  | [] => []
  | (_, slot) :: elements => slot.toData :: elementsData elements
end

end Slot

namespace Document

/-- Why there is no document. -/
inductive Error where
  /-- The key is no path. -/
  | invalidPath (path : String)
  /-- The key wants a slot to be something that keys before it made something else. -/
  | conflictingPath (path : String)
deriving DecidableEq

/-- The slots with the values of one key placed. -/
def addKey (root : Slot) (key : String) (items : List String) : Except Error Slot :=
  match Path.tokenize? key with
  | none => .error (.invalidPath key)
  | some hops =>
    match (hops.mapM Hop.step?).bind fun steps => root.place items steps with
    | none => .error (.conflictingPath key)
    | some root => .ok root

/-- The slots that all keys fill, in key order. -/
def slots (values : Values) : Except Error Slot :=
  values.entries.foldlM (fun root entry => addKey root entry.1 entry.2) .empty

/-- The document that the values flatten; without values it is an empty object. -/
def ofValues (values : Values) : Except Error Data := do
  match ← slots values with
  | .empty => return .object []
  | root => return root.toData

end Document

end Allowlist
