import Allowlist.Document
import Allowlist.Proofs.Keyed

/-!
# Proofs.Document.Slot — what one placement changes

A tree of slots is observed through `Slot.at?`, the part at the end of some steps.  Placing items
at the end of steps changes the parts on the way there and nothing else, and each of them in one
way (`at?_place`).  What holds of a tree after many placements follows from this one lemma.
-/

namespace Allowlist.Slot

/-- The part at the end of the steps. -/
def at? : List Step → Slot → Option Slot
  | [], slot => some slot
  | .member name :: steps, object members => (members.lookup name).bind (at? steps)
  | .index position :: steps, array elements _ => (elements.lookup position).bind (at? steps)
  | _ :: _, _ => none

/-- The part at the end of the steps, empty where there is none yet. -/
def find (steps : List Step) (slot : Slot) : Slot := (slot.at? steps).getD empty

@[simp] theorem at?_nil (slot : Slot) : slot.at? [] = some slot := by
  cases slot <;> rfl

@[simp] theorem find_nil (slot : Slot) : slot.find [] = slot := by
  rw [find, at?_nil, Option.getD_some]

theorem at?_empty_cons (step : Step) (steps : List Step) : empty.at? (step :: steps) = none := by
  cases step <;> rfl

theorem at?_leaf_cons (items : List String) (step : Step) (steps : List Step) :
    (leaf items).at? (step :: steps) = none := by
  cases step <;> rfl

/-- There is none yet, or it is what is there. -/
theorem find_cases (slot : Slot) (steps : List Step) :
    slot.find steps = empty ∨ slot.at? steps = some (slot.find steps) := by
  unfold find
  cases slot.at? steps with
  | none => exact .inl rfl
  | some part => exact .inr rfl

theorem find_empty (steps : List Step) : empty.find steps = empty := by
  cases steps with
  | nil => rfl
  | cons step steps => rw [find, at?_empty_cons, Option.getD_none]

/-! ### Objects and arrays -/

theorem members?_eq_some_iff {slot : Slot} {members : List (String × Slot)} :
    slot.members? = some members ↔ (slot = empty ∧ members = []) ∨ slot = object members := by
  cases slot <;> simp [members?, eq_comm]

theorem elements?_eq_some_iff {slot : Slot} {elements : List (Nat × Slot)}
    {appended : List String} :
    slot.elements? = some (elements, appended) ↔
      (slot = empty ∧ elements = [] ∧ appended = []) ∨ slot = array elements appended := by
  cases slot <;> simp [elements?, eq_comm]

/-- The members that a slot has or can get. -/
theorem at?_member_cons {slot : Slot} {members : List (String × Slot)}
    (h : slot.members? = some members) (name : String) (steps : List Step) :
    slot.at? (.member name :: steps) = (members.lookup name).bind (at? steps) := by
  obtain ⟨rfl, rfl⟩ | rfl := members?_eq_some_iff.mp h
  · exact at?_empty_cons _ _
  · rfl

theorem at?_index_cons {slot : Slot} {elements : List (Nat × Slot)} {appended : List String}
    (h : slot.elements? = some (elements, appended)) (position : Nat) (steps : List Step) :
    slot.at? (.index position :: steps) = (elements.lookup position).bind (at? steps) := by
  obtain ⟨rfl, rfl, rfl⟩ | rfl := elements?_eq_some_iff.mp h
  · exact at?_empty_cons _ _
  · rfl

theorem find_getD (child : Option Slot) (steps : List Step) :
    (child.bind (at? steps)).getD empty = (child.getD empty).find steps := by
  cases child with
  | none => exact (find_empty steps).symm
  | some slot => rfl

theorem at?_getD (child : Option Slot) {steps : List Step} (hne : steps ≠ []) :
    (child.getD empty).at? steps = child.bind (at? steps) := by
  cases child with
  | some slot => rfl
  | none =>
    cases steps with
    | nil => exact absurd rfl hne
    | cons step steps => exact at?_empty_cons step steps

/-! ### Placements -/

theorem place_append_eq_some_iff {items : List String} {rest : List Step} {slot slot' : Slot} :
    place items (.append :: rest) slot = some slot' ↔
      ∃ elements appended, slot.elements? = some (elements, appended) ∧
        slot' = array elements (appended ++ items) := by
  rw [place, Option.map_eq_some_iff]
  constructor
  · rintro ⟨⟨elements, appended⟩, h, rfl⟩
    exact ⟨elements, appended, h, rfl⟩
  · rintro ⟨elements, appended, h, rfl⟩
    exact ⟨(elements, appended), h, rfl⟩

theorem place_index_eq_some_iff {items : List String} {position : Nat} {rest : List Step}
    {slot slot' : Slot} :
    place items (.index position :: rest) slot = some slot' ↔
      ∃ elements appended element, slot.elements? = some (elements, appended) ∧
        place items rest ((elements.lookup position).getD empty) = some element ∧
        slot' = array (Keyed.insert position element elements) appended := by
  rw [place]
  simp only [Option.bind_eq_bind, Option.bind_eq_some_iff, Option.pure_def, Option.some.injEq]
  constructor
  · rintro ⟨⟨elements, appended⟩, h, element, hplace, rfl⟩
    exact ⟨elements, appended, element, h, hplace, rfl⟩
  · rintro ⟨elements, appended, element, h, hplace, rfl⟩
    exact ⟨(elements, appended), h, element, hplace, rfl⟩

theorem place_member_eq_some_iff {items : List String} {name : String} {rest : List Step}
    {slot slot' : Slot} :
    place items (.member name :: rest) slot = some slot' ↔
      ∃ members member, slot.members? = some members ∧
        place items rest ((members.lookup name).getD empty) = some member ∧
        slot' = object (Keyed.insert name member members) := by
  rw [place]
  simp only [Option.bind_eq_bind, Option.bind_eq_some_iff, Option.pure_def, Option.some.injEq]
  constructor
  · rintro ⟨members, h, member, hplace, rfl⟩
    exact ⟨members, member, h, hplace, rfl⟩
  · rintro ⟨members, member, h, hplace, rfl⟩
    exact ⟨members, h, member, hplace, rfl⟩

/-- What a placement of `items` at `steps` can have done to the part at `other`. -/
inductive Placed (items : List String) (steps : List Step) (slot : Slot) (other : List Step) :
    Slot → Prop
  /-- Nothing, the part was there before. -/
  | kept {part : Slot} :
      other ≠ [] → slot.at? other = some part → Placed items steps slot other part
  /-- It is the new leaf. -/
  | leaf : other = steps → Placed items steps slot other (leaf items)
  /-- The items were appended to it. -/
  | append {rest : List Step} {elements : List (Nat × Slot)} {appended : List String} :
      steps = other ++ .append :: rest → (slot.find other).elements? = some (elements, appended) →
      Placed items steps slot other (array elements (appended ++ items))
  /-- One of its elements changed. -/
  | index {position : Nat} {rest : List Step} {elements : List (Nat × Slot)}
      {appended : List String} {element : Slot} :
      steps = other ++ .index position :: rest →
      (slot.find other).elements? = some (elements, appended) →
      Placed items steps slot other (array (Keyed.insert position element elements) appended)
  /-- One of its members changed. -/
  | member {name : String} {rest : List Step} {members : List (String × Slot)} {member : Slot} :
      steps = other ++ .member name :: rest → (slot.find other).members? = some members →
      Placed items steps slot other (object (Keyed.insert name member members))

/-- A change below an element or a member is a change below the slot. -/
theorem Placed.cons {items : List String} {step : Step} {steps other : List Step}
    {slot child part : Slot}
    (hat : ∀ other, other ≠ [] → child.at? other = slot.at? (step :: other))
    (hfind : ∀ other, child.find other = slot.find (step :: other))
    (h : Placed items steps child other part) :
    Placed items (step :: steps) slot (step :: other) part := by
  cases h with
  | kept hne hpart => exact .kept (by simp) (by rw [← hat other hne, hpart])
  | leaf he => exact .leaf (by rw [he])
  | append he helements => exact .append (by rw [he]; rfl) (by rw [← hfind, helements])
  | index he helements => exact .index (by rw [he]; rfl) (by rw [← hfind, helements])
  | member he hmembers => exact .member (by rw [he]; rfl) (by rw [← hfind, hmembers])

/-- Every part after a placement was there before, or lies on the way to what was placed. -/
theorem at?_place {items : List String} {steps other : List Step} {slot slot' part : Slot}
    (h : place items steps slot = some slot') (hpart : slot'.at? other = some part) :
    Placed items steps slot other part := by
  induction steps generalizing slot slot' other with
  | nil =>
    cases slot <;> simp only [place, Option.some.injEq, reduceCtorEq] at h
    subst h
    cases other with
    | nil =>
      rw [at?_nil, Option.some.injEq] at hpart
      exact hpart ▸ .leaf rfl
    | cons step other =>
      rw [at?_leaf_cons] at hpart
      cases hpart
  | cons step steps ih =>
    cases step with
    | append =>
      obtain ⟨elements, appended, helements, rfl⟩ := place_append_eq_some_iff.mp h
      cases other with
      | nil =>
        rw [at?_nil, Option.some.injEq] at hpart
        subst hpart
        exact .append rfl (by rw [find_nil, helements])
      | cons next other =>
        cases next with
        | index position =>
          exact .kept (by simp) (by rw [at?_index_cons helements, ← hpart]; rfl)
        | member name => cases hpart
        | append => cases hpart
    | index position =>
      obtain ⟨elements, appended, element, helements, hplace, rfl⟩ := place_index_eq_some_iff.mp h
      cases other with
      | nil =>
        rw [at?_nil, Option.some.injEq] at hpart
        subst hpart
        exact .index rfl (by rw [find_nil, helements])
      | cons next other =>
        cases next with
        | index position' =>
          rw [at?] at hpart
          by_cases he : position' = position
          · subst he
            rw [Keyed.lookup_insert_self, Option.bind_some] at hpart
            refine Placed.cons (fun other hne => ?_) (fun other => ?_) (ih hplace hpart)
            · rw [at?_index_cons helements, at?_getD _ hne]
            · rw [← find_getD, find, at?_index_cons helements]
          · rw [Keyed.lookup_insert_of_ne he] at hpart
            exact .kept (by simp) (by rw [at?_index_cons helements, hpart])
        | member name => cases hpart
        | append => cases hpart
    | member name =>
      obtain ⟨members, member, hmembers, hplace, rfl⟩ := place_member_eq_some_iff.mp h
      cases other with
      | nil =>
        rw [at?_nil, Option.some.injEq] at hpart
        subst hpart
        exact .member rfl (by rw [find_nil, hmembers])
      | cons next other =>
        cases next with
        | member name' =>
          rw [at?] at hpart
          by_cases he : name' = name
          · subst he
            rw [Keyed.lookup_insert_self, Option.bind_some] at hpart
            refine Placed.cons (fun other hne => ?_) (fun other => ?_) (ih hplace hpart)
            · rw [at?_member_cons hmembers, at?_getD _ hne]
            · rw [← find_getD, find, at?_member_cons hmembers]
          · rw [Keyed.lookup_insert_of_ne he] at hpart
            exact .kept (by simp) (by rw [at?_member_cons hmembers, hpart])
        | index position => cases hpart
        | append => cases hpart

end Allowlist.Slot
