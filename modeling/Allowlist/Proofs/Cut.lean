import Allowlist.Cut

/-!
# Proofs.Cut — where a list is cut

The two cuts give back the parts that they are said to give: an element on which the function
answers, with no answer before it, or no answer after it.  An element of two lists in a row stands
in one of them, and the cut around it is one of that list.
-/

namespace Allowlist.Cut

variable {α β : Type} {f : α → Option β}

theorem first?_eq_none_iff {as : List α} : first? f as = none ↔ ∀ a ∈ as, f a = none := by
  induction as with
  | nil => simp [first?]
  | cons a as ih =>
    rw [first?]
    cases h : f a with
    | none => simp [h, ih]
    | some b => simp [h]

theorem first?_append_cons {front back : List α} {a : α} {b : β} (hfront : ∀ x ∈ front, f x = none)
    (ha : f a = some b) : first? f (front ++ a :: back) = some (front, b, back) := by
  induction front with
  | nil => simp [first?, ha]
  | cons x front ih =>
    have hx : f x = none := hfront x (by simp)
    simp [first?, hx, ih fun y hy => hfront y (by simp [hy])]

/-- The first cut of a list with a front on which there is no answer. -/
theorem first?_append_of_none {front as : List α} (h : ∀ x ∈ front, f x = none) :
    first? f (front ++ as) =
      (first? f as).map fun (before, b, back) => (front ++ before, b, back) := by
  induction front with
  | nil => simp
  | cons x front ih =>
    rw [List.cons_append, first?, h x List.mem_cons_self,
      ih fun y hy => h y (List.mem_cons_of_mem _ hy)]
    cases first? f as <;> rfl

/-- The last cut of a list with a front on which there is no answer. -/
theorem last?_append_of_none {front as : List α} (h : ∀ x ∈ front, f x = none) :
    last? f (front ++ as) =
      (last? f as).map fun (before, b, back) => (front ++ before, b, back) := by
  induction front with
  | nil => simp
  | cons x front ih =>
    rw [List.cons_append, last?, ih fun y hy => h y (List.mem_cons_of_mem _ hy)]
    cases last? f as with
    | none => simp only [Option.map_none, h x List.mem_cons_self]
    | some found => rfl

theorem last?_eq_none {as : List α} (h : ∀ a ∈ as, f a = none) : last? f as = none := by
  induction as with
  | nil => rfl
  | cons a as ih =>
    have ha : f a = none := h a (by simp)
    simp [last?, ha, ih fun y hy => h y (by simp [hy])]

theorem last?_append_cons {front back : List α} {a : α} {b : β} (ha : f a = some b)
    (hback : ∀ x ∈ back, f x = none) : last? f (front ++ a :: back) = some (front, b, back) := by
  induction front with
  | nil => simp [last?, ha, last?_eq_none hback]
  | cons x front ih => simp [last?, ih]

/-! ### An element of two parts -/

/-- An element that the front does not have stands behind it. -/
theorem behind_of_notMem {a : α} {front as before back : List α} (ha : a ∉ front)
    (h : front ++ as = before ++ a :: back) :
    ∃ inner, before = front ++ inner ∧ as = inner ++ a :: back := by
  rcases List.append_eq_append_iff.mp h with ⟨inner, hbefore, has⟩ | ⟨inner, hfront, hback⟩
  · exact ⟨inner, hbefore, has⟩
  · cases inner with
    | nil => exact ⟨[], by simpa using hfront.symm, hback.symm⟩
    | cons x inner =>
      obtain ⟨rfl, -⟩ := List.cons.inj hback
      exact absurd (by rw [hfront]; simp) ha

/-- An element that the back does not have stands before it. -/
theorem before_of_notMem {a : α} {as more before back : List α} (ha : a ∉ more)
    (h : as ++ more = before ++ a :: back) :
    ∃ inner, as = before ++ a :: inner ∧ back = inner ++ more := by
  rcases List.append_eq_append_iff.mp h with ⟨inner, -, hmore⟩ | ⟨inner, has, hback⟩
  · exact absurd (by rw [hmore]; simp) ha
  · cases inner with
    | nil => exact absurd (by rw [← hback.trans (List.nil_append _)]; simp) ha
    | cons x inner =>
      obtain ⟨rfl, rfl⟩ := List.cons.inj hback
      exact ⟨inner, has, rfl⟩

/-- An element other than the one in between stands before it or behind it. -/
theorem before_or_behind {a x : α} {as more before back : List α} (hne : a ≠ x)
    (h : as ++ x :: more = before ++ a :: back) :
    (∃ inner, as = before ++ a :: inner ∧ back = inner ++ x :: more) ∨
      ∃ inner, before = as ++ x :: inner ∧ more = inner ++ a :: back := by
  rcases List.append_eq_append_iff.mp h with ⟨inner, hbefore, hmore⟩ | ⟨inner, has, hback⟩
  · cases inner with
    | nil => exact absurd (List.cons.inj hmore).1.symm hne
    | cons y inner =>
      obtain ⟨rfl, hrest⟩ := List.cons.inj hmore
      exact .inr ⟨inner, hbefore, hrest⟩
  · cases inner with
    | nil => exact absurd (List.cons.inj hback).1 hne
    | cons y inner =>
      obtain ⟨rfl, hrest⟩ := List.cons.inj hback
      exact .inl ⟨inner, has, hrest⟩

end Allowlist.Cut
