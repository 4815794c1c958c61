import Allowlist.Distinct
import Mathlib.Data.List.Induction
import Mathlib.Data.List.Nodup

/-!
# Proofs.Distinct — what a list of first occurrences holds

Nothing but repetitions is left out, and a list without repetitions stays as it is.  Extending a
list twice is extending it once by what the second list adds to the first (`extend_extend`).
-/

namespace Allowlist.Distinct

variable {α : Type} [DecidableEq α]

@[simp] theorem mem_add {kept : List α} {a b : α} : b ∈ add kept a ↔ b ∈ kept ∨ b = a := by
  unfold add
  by_cases h : a ∈ kept
  · rw [if_pos h]
    exact ⟨.inl, fun hb => hb.elim id fun he => he ▸ h⟩
  · rw [if_neg h, List.mem_append, List.mem_singleton]

@[simp] theorem mem_extend {kept more : List α} {b : α} :
    b ∈ extend kept more ↔ b ∈ kept ∨ b ∈ more := by
  unfold extend
  induction more generalizing kept with
  | nil => simp
  | cons a more ih => rw [List.foldl_cons, ih, mem_add, List.mem_cons, or_assoc]

@[simp] theorem mem_ofList {elements : List α} {b : α} : b ∈ ofList elements ↔ b ∈ elements := by
  simp [ofList]

@[simp] theorem extend_eq_nil_iff {kept more : List α} :
    extend kept more = [] ↔ kept = [] ∧ more = [] := by
  simp only [List.eq_nil_iff_forall_not_mem, mem_extend, not_or, forall_and]

/-! ### One list after the other -/

theorem add_of_mem {kept : List α} {a : α} (h : a ∈ kept) : add kept a = kept := if_pos h

theorem extend_concat (kept more : List α) (a : α) :
    extend kept (more ++ [a]) = add (extend kept more) a := by
  simp [extend, List.foldl_append]

/-- Elements that are all present add nothing. -/
theorem extend_eq_self {kept more : List α} (h : ∀ a ∈ more, a ∈ kept) :
    extend kept more = kept := by
  induction more using List.reverseRecOn with
  | nil => rfl
  | append_singleton more a ih =>
    rw [extend_concat, ih fun b hb => h b (List.mem_append_left _ hb)]
    exact add_of_mem (h a (by simp))

theorem extend_add (kept more : List α) (a : α) :
    extend kept (add more a) = add (extend kept more) a := by
  by_cases h : a ∈ more
  · rw [add_of_mem h, add_of_mem (mem_extend.mpr (.inr h))]
  · rw [add, if_neg h, extend_concat]

theorem extend_extend (kept more others : List α) :
    extend (extend kept more) others = extend kept (extend more others) := by
  induction others using List.reverseRecOn with
  | nil => rfl
  | append_singleton others a ih => rw [extend_concat, extend_concat, ih, extend_add]

/-! ### Repetitions -/

theorem nodup_add {kept : List α} (h : kept.Nodup) (a : α) : (add kept a).Nodup := by
  unfold add
  by_cases ha : a ∈ kept
  · rwa [if_pos ha]
  · rw [if_neg ha]
    exact h.append (List.nodup_singleton a) (by simpa using ha)

theorem nodup_extend {kept more : List α} (h : kept.Nodup) : (extend kept more).Nodup := by
  unfold extend
  induction more generalizing kept with
  | nil => exact h
  | cons a more ih => exact ih (nodup_add h a)

theorem nodup_ofList (elements : List α) : (ofList elements).Nodup := nodup_extend List.nodup_nil

/-- New elements without repetitions are all added, in their order. -/
theorem extend_eq_append {kept more : List α} (h : (kept ++ more).Nodup) :
    extend kept more = kept ++ more := by
  unfold extend
  induction more generalizing kept with
  | nil => simp
  | cons a more ih =>
    have hnew : a ∉ kept := fun ha => (List.nodup_append.mp h).2.2 a ha a (by simp) rfl
    rw [List.foldl_cons, add, if_neg hnew, ih (by simpa using h)]
    simp

theorem ofList_concat (elements : List α) (a : α) :
    ofList (elements ++ [a]) = add (ofList elements) a := by
  rw [ofList, extend_concat, ofList]

theorem ofList_eq_self {elements : List α} (h : elements.Nodup) : ofList elements = elements := by
  have hnil : ([] ++ elements).Nodup := h
  exact extend_eq_append hnil

end Allowlist.Distinct
