import Allowlist.Rule.Entry
import Allowlist.Shape.Merge

/-!
# Rule.Group — shapes from entries

A group that has been built is parked, with its depth, in a numbered slot until the one reference
to it is read; reading a reference empties the slot.  An object merges the entries of one name from
left to right.  An array reads a key as an object with that one member and keeps each element shape
once.
-/

namespace Allowlist.Rule

/-- A group that has been built, and its nesting depth. -/
structure Parked where
  shape : Shape
  depth : Nat
deriving DecidableEq

namespace Parked

/-- What a key without a group denotes. -/
def key : Parked := ⟨.key, 1⟩

/-- The object with the one member `name`, as array entries with a key denote it. -/
def under (name : String) (group : Parked) : Parked :=
  ⟨.object [(name, group.shape)], group.depth + 1⟩

end Parked

/-- The parked groups by number; the slot of a group that has been read is empty. -/
abbrev Slots := List (Option Parked)

namespace Slots

/-- The group parked at `index`, and the slots without it. -/
def take (slots : Slots) (index : Nat) : Except Fault (Parked × Slots) :=
  match slots[index]? with
  | some (some group) => .ok (group, slots.set index none)
  | _ => .error (.danglingReference index)

end Slots

namespace Group

variable [Shape.MemberOrder]

/-- A group under construction: the slots that are left, the parts so far, and the greatest depth
among them. -/
structure Draft (α : Type) where
  slots : Slots
  parts : List α
  depth : Nat

/-- One more entry of an object. -/
def addObjectEntry (state : Draft (String × Shape)) (entry : Entry) :
    Except Fault (Draft (String × Shape)) := do
  let (name, child, slots) ← match entry with
    | .key name => .ok (name, Parked.key, state.slots)
    | .keyed name index => do
      let (child, slots) ← state.slots.take index
      .ok (name, child, slots)
    | .group _ => .error .unnamedGroup
  let members ← (Shape.addMember [] state.parts name child.shape).mapError .conflict
  return ⟨slots, members, max state.depth child.depth⟩

/-- One more entry of an array. -/
def addArrayEntry (state : Draft Shape) (entry : Entry) : Except Fault (Draft Shape) := do
  let (element, slots) ← match entry with
    | .key name => .ok (Parked.key.under name, state.slots)
    | .keyed name index => do
      let (child, slots) ← state.slots.take index
      .ok (child.under name, slots)
    | .group index => state.slots.take index
  return ⟨slots, Distinct.add state.parts element.shape, max state.depth element.depth⟩

/-- A finished group, refused when it is nested too deeply. -/
def close (shape : Shape) (depth : Nat) (slots : Slots) : Except Fault (Parked × Slots) :=
  if depth > maxDepth then .error (.tooDeep depth) else .ok (⟨shape, depth⟩, slots)

/-- The group that a body denotes, and the slots that it leaves. -/
def build (kind : GroupKind) (body : List Symbol) (slots : Slots) :
    Except Fault (Parked × Slots) := do
  let entries ← Entry.ofBody body
  match kind with
  | .object =>
    let state ← entries.foldlM addObjectEntry ⟨slots, [], 0⟩
    close (.object state.parts) (state.depth + 1) state.slots
  | .array =>
    let state ← entries.foldlM addArrayEntry ⟨slots, [], 0⟩
    close (.array state.parts) (state.depth + 1) state.slots

end Group

end Allowlist.Rule
