import Allowlist.Proofs.Shape.Basic

/-!
# Proofs.Shape.Prune — parts of a shape that permit nothing

A member whose name is a number is never read, since a number counts elements, and an object without
members reads nothing.  `prune` leaves such parts out: the members under numbers, the members and
elements that are or become an empty object, and the arrays none of whose elements are left, which
become empty objects themselves.  What remains accepts the same hops (`accepts_prune`).
-/

namespace Allowlist.Shape

mutual
/-- The shape without the parts that permit nothing. -/
def prune : Shape → Shape
  | key => key
  | object members => object (pruneMembers members)
  | array [] => array []
  | array (e :: es) =>
    if pruneElements (e :: es) = [] then object [] else array (pruneElements (e :: es))

/-- The members that are no numbers and do not become empty. -/
def pruneMembers : List (String × Shape) → List (String × Shape)
  | [] => []
  | (name, shape) :: members =>
    if isDecimal name ∨ shape.prune = object [] then pruneMembers members
    else (name, shape.prune) :: pruneMembers members

/-- The elements that do not become empty. -/
def pruneElements : List Shape → List Shape
  | [] => []
  | shape :: shapes =>
    if shape.prune = object [] then pruneElements shapes
    else shape.prune :: pruneElements shapes
end

/-- An object without members accepts nothing. -/
@[simp] theorem accepts_object_nil (hops : List Hop) : (object []).accepts hops = false := by
  cases hops with
  | nil => rfl
  | cons hop rest =>
    rw [accepts_object_cons]
    cases hop.member? <;> rfl

theorem mem_pruneElements {elements : List Shape} {t : Shape} :
    t ∈ pruneElements elements ↔ ∃ s ∈ elements, s.prune = t ∧ t ≠ object [] := by
  induction elements with
  | nil => simp [pruneElements]
  | cons s elements ih =>
    rw [pruneElements, List.exists_mem_cons_iff, ← ih]
    by_cases hs : s.prune = object []
    · rw [if_pos hs]
      refine (or_iff_right ?_).symm
      rintro ⟨rfl, ht⟩
      exact ht hs
    · rw [if_neg hs, List.mem_cons]
      refine or_congr_left ⟨?_, fun h => h.1.symm⟩
      rintro rfl
      exact ⟨rfl, hs⟩

/-- Under a name that is no number, the pruned member is found unless it became empty. -/
theorem lookup_pruneMembers {members : List (String × Shape)} (h : Keyed.Sorted members)
    {name : String} (hname : isDecimal name = false) :
    (pruneMembers members).lookup name =
      ((members.lookup name).map prune).filter (· ≠ object []) := by
  induction members with
  | nil => rfl
  | cons m members ih =>
    obtain ⟨k, s⟩ := m
    have hrest := ih h.tail
    rw [pruneMembers]
    by_cases hk : name = k
    · subst hk
      -- the list is sorted, so a member that is left out does not stand there again
      have hnone : members.lookup name = none := h.lookup_tail_eq_none
      by_cases hs : s.prune = object []
      · rw [if_pos (.inr hs), hrest, hnone, List.lookup_cons_self]
        simp [hs, Option.filter]
      · rw [if_neg (by simp [hname, hs]), List.lookup_cons_self, List.lookup_cons_self]
        simp [hs, Option.filter]
    · have hskip : List.lookup name ((k, s) :: members) = members.lookup name := by
        rw [List.lookup_cons, beq_false_of_ne hk]
      rw [hskip]
      split_ifs
      · exact hrest
      · rw [List.lookup_cons, beq_false_of_ne hk]
        exact hrest

/-- What is left out of a shape permits nothing. -/
theorem accepts_prune {s : Shape} (hs : s.Sorted) (hops : List Hop) :
    s.prune.accepts hops = s.accepts hops := by
  induction s using Shape.induction generalizing hops with
  | key => rfl
  | object members ih =>
    obtain ⟨hmembers, hsub⟩ := sorted_object.mp hs
    rw [prune]
    cases hops with
    | nil => rfl
    | cons hop rest =>
      rw [accepts_object_cons, accepts_object_cons]
      cases hmember : hop.member? with
      | none => rfl
      | some name =>
        rw [Option.any_some, Option.any_some,
          lookup_pruneMembers hmembers (Hop.member?_eq_some_iff.mp hmember).2]
        cases hl : members.lookup name with
        | none => rfl
        | some child =>
          have hmem := Keyed.mem_of_lookup hl
          have hchild := ih _ hmem (hsub _ hmem) rest
          by_cases hempty : child.prune = object []
          · rw [hempty, accepts_object_nil] at hchild
            simp [hempty, ← hchild]
          · simp [hempty, hchild]
  | array elements ih =>
    have hsub := sorted_array.mp hs
    cases elements with
    | nil => rfl
    | cons e es =>
      have hany : ∀ rest, (pruneElements (e :: es)).any (·.accepts rest) =
          (e :: es).any (·.accepts rest) := by
        intro rest
        rw [Bool.eq_iff_iff, List.any_eq_true, List.any_eq_true]
        constructor
        · rintro ⟨t, ht, haccepts⟩
          obtain ⟨s, hs, rfl, -⟩ := mem_pruneElements.mp ht
          exact ⟨s, hs, by rwa [← ih s hs (hsub s hs)]⟩
        · rintro ⟨s, hs, haccepts⟩
          rw [← ih s hs (hsub s hs)] at haccepts
          refine ⟨s.prune, mem_pruneElements.mpr ⟨s, hs, rfl, fun he => ?_⟩, haccepts⟩
          rw [he, accepts_object_nil] at haccepts
          cases haccepts
      rw [prune]
      cases hops with
      | nil =>
        split_ifs with hnone
        · rfl
        · cases pruneElements (e :: es) <;> rfl
      | cons hop rest =>
        split_ifs with hnone
        · have hfalse := hany rest
          rw [hnone, List.any_nil] at hfalse
          rw [accepts_object_nil, accepts_array_cons, if_neg (List.cons_ne_nil _ _), ← hfalse]
          simp
        · rw [accepts_array_cons, accepts_array_cons, hany, if_neg hnone,
            if_neg (List.cons_ne_nil _ _)]

end Allowlist.Shape
