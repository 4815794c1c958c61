import Allowlist.Proofs.Keyed
import Allowlist.Shape.Basic
import Mathlib.Data.List.Forall2

/-!
# Proofs.Shape.Basic — induction on shapes, and what depth and matching look at

`Shape.induction` is the induction over a shape, with one hypothesis for each member and for each
element.  Depth is a bound: a group is no deeper than `n + 1` when its parts are no deeper than
`n`.  Matching reads of a hop only the member name and whether it is an element, so it does not
tell two element hops apart (`accepts_congr`).
-/

namespace Allowlist

/-! ### Hops -/

namespace Hop

theorem member?_eq_some_iff {hop : Hop} {name : String} :
    hop.member? = some name ↔ hop.text? = some name ∧ isDecimal name = false := by
  rw [member?, Option.filter_eq_some_iff, Bool.not_eq_true']

theorem isElement_eq_true_iff {hop : Hop} :
    hop.isElement = true ↔ hop.isNumeric = true ∨ hop = .anonymous := by
  rw [isElement, isAnonymous, Bool.or_eq_true, beq_iff_eq, or_comm]

end Hop

namespace Shape

/-- Induction over a shape, with a hypothesis for each part. -/
@[elab_as_elim]
theorem induction {motive : Shape → Prop} (key : motive .key)
    (object : ∀ members, (∀ m ∈ members, motive m.2) → motive (.object members))
    (array : ∀ elements, (∀ e ∈ elements, motive e) → motive (.array elements)) (s : Shape) :
    motive s := by
  refine Shape.rec (motive_1 := motive) (motive_2 := fun ms => ∀ m ∈ ms, motive m.2)
    (motive_3 := fun es => ∀ e ∈ es, motive e) (motive_4 := fun m => motive m.2)
    key object array ?_ ?_ ?_ ?_ ?_ s
  · exact fun m hm => absurd hm List.not_mem_nil
  · exact fun m ms hm hms n hn => (List.mem_cons.mp hn).elim (fun he => he ▸ hm) (hms n)
  · exact fun e he => absurd he List.not_mem_nil
  · exact fun e es he hes f hf => (List.mem_cons.mp hf).elim (fun h => h ▸ he) (hes f)
  · exact fun _ _ h => h

/-! ### Sorted shapes -/

theorem sortedMembers_iff {members : List (String × Shape)} :
    SortedMembers members ↔ ∀ m ∈ members, m.2.Sorted := by
  induction members with
  | nil => simp [SortedMembers]
  | cons m members ih =>
    obtain ⟨k, s⟩ := m
    simp [SortedMembers, ih]

theorem sortedElements_iff {elements : List Shape} :
    SortedElements elements ↔ ∀ e ∈ elements, e.Sorted := by
  induction elements with
  | nil => simp [SortedElements]
  | cons e elements ih => simp [SortedElements, ih]

@[simp] theorem sorted_key : Sorted key := trivial

@[simp] theorem sorted_object {members : List (String × Shape)} :
    (object members).Sorted ↔ Keyed.Sorted members ∧ ∀ m ∈ members, m.2.Sorted := by
  rw [Sorted, sortedMembers_iff]

@[simp] theorem sorted_array {elements : List Shape} :
    (array elements).Sorted ↔ ∀ e ∈ elements, e.Sorted := by
  rw [Sorted, sortedElements_iff]

/-! ### Depth -/

@[simp] theorem membersDepth_le_iff {members : List (String × Shape)} {n : Nat} :
    membersDepth members ≤ n ↔ ∀ m ∈ members, m.2.depth ≤ n := by
  induction members with
  | nil => simp [membersDepth]
  | cons m members ih =>
    obtain ⟨k, s⟩ := m
    simp only [membersDepth, Nat.max_le, ih, List.forall_mem_cons]

@[simp] theorem elementsDepth_le_iff {elements : List Shape} {n : Nat} :
    elementsDepth elements ≤ n ↔ ∀ e ∈ elements, e.depth ≤ n := by
  induction elements with
  | nil => simp [elementsDepth]
  | cons e elements ih => simp only [elementsDepth, Nat.max_le, ih, List.forall_mem_cons]

/-! ### Matching -/

theorem accepts_object_cons (members : List (String × Shape)) (hop : Hop) (rest : List Hop) :
    (object members).accepts (hop :: rest) =
      hop.member?.any fun name => (members.lookup name).any (·.accepts rest) := by
  simp only [accepts, memberAccepts_eq]

theorem accepts_array_cons (elements : List Shape) (hop : Hop) (rest : List Hop) :
    (array elements).accepts (hop :: rest) =
      (hop.isElement && (if elements = [] then rest.isEmpty
        else !rest.isEmpty && elements.any (·.accepts rest))) := by
  cases elements with
  | nil => simp [accepts]
  | cons e es => simp [accepts, someAccepts_eq, Bool.and_assoc]

end Shape

/-- Two hops that no shape tells apart. -/
def Hop.Alike (a b : Hop) : Prop := a.member? = b.member? ∧ a.isElement = b.isElement

/-- Shapes accept alike hops alike. -/
theorem Shape.accepts_congr (s : Shape) {as bs : List Hop} (h : List.Forall₂ Hop.Alike as bs) :
    s.accepts as = s.accepts bs := by
  induction s using Shape.induction generalizing as bs with
  | key => cases h <;> rfl
  | object members ih =>
    cases h with
    | nil => rfl
    | cons hab hrest =>
      rw [accepts_object_cons, accepts_object_cons, hab.1]
      refine congrArg (Option.any · _) (funext fun name => ?_)
      cases hl : members.lookup name with
      | none => rfl
      | some child => exact ih _ (Keyed.mem_of_lookup hl) hrest
  | array elements ih =>
    cases h with
    | nil => cases elements <;> rfl
    | @cons a b as bs hab hrest =>
      have hany : elements.any (·.accepts as) = elements.any (·.accepts bs) := by
        rw [Bool.eq_iff_iff, List.any_eq_true, List.any_eq_true]
        exact exists_congr fun e => and_congr_right fun he => by rw [ih e he hrest]
      have hnil : as.isEmpty = bs.isEmpty := by cases hrest <;> rfl
      rw [accepts_array_cons, accepts_array_cons, hab.2, hany, hnil]

end Allowlist
