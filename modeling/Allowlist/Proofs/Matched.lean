import Mathlib.Data.List.Forall2

/-!
# Proofs.Matched — lists of partners

Two lists are matched when every element of either has a partner in the other.  How often an element
is listed, and in which order, does not matter.  What holds of partners alike can be asked of matched
lists: whether all, some or none of the elements have it.
-/

namespace Allowlist

/-- Every element on either side has a partner on the other. -/
structure Matched {α β : Type} (R : α → β → Prop) (as : List α) (bs : List β) : Prop where
  left : ∀ a ∈ as, ∃ b ∈ bs, R a b
  right : ∀ b ∈ bs, ∃ a ∈ as, R a b

namespace Matched

variable {α β γ δ : Type} {R : α → β → Prop} {as : List α} {bs : List β}

theorem cons (h : Matched R as bs) {a : α} {b : β} (hab : R a b) :
    Matched R (a :: as) (b :: bs) where
  left := List.forall_mem_cons.mpr ⟨⟨b, List.mem_cons_self, hab⟩, fun x hx =>
    (h.left x hx).imp fun _ ⟨hy, hxy⟩ => ⟨List.mem_cons_of_mem _ hy, hxy⟩⟩
  right := List.forall_mem_cons.mpr ⟨⟨a, List.mem_cons_self, hab⟩, fun y hy =>
    (h.right y hy).imp fun _ ⟨hx, hxy⟩ => ⟨List.mem_cons_of_mem _ hx, hxy⟩⟩

theorem of_forall₂ (h : List.Forall₂ R as bs) : Matched R as bs := by
  induction h with
  | nil => exact ⟨nofun, nofun⟩
  | cons hab _ ih => exact ih.cons hab

theorem symm {S : β → α → Prop} (h : Matched R as bs) (hRS : ∀ a b, R a b → S b a) :
    Matched S bs as where
  left b hb := (h.right b hb).imp fun a ⟨ha, hab⟩ => ⟨ha, hRS a b hab⟩
  right a ha := (h.left a ha).imp fun b ⟨hb, hab⟩ => ⟨hb, hRS a b hab⟩

/-- Partners stay partners wherever the same elements are listed. -/
theorem congr (h : Matched R as bs) {as' : List α} {bs' : List β} (has : ∀ a, a ∈ as' ↔ a ∈ as)
    (hbs : ∀ b, b ∈ bs' ↔ b ∈ bs) : Matched R as' bs' where
  left a ha := (h.left a ((has a).mp ha)).imp fun b ⟨hb, hab⟩ => ⟨(hbs b).mpr hb, hab⟩
  right b hb := (h.right b ((hbs b).mp hb)).imp fun a ⟨ha, hab⟩ => ⟨(has a).mpr ha, hab⟩

theorem map {S : γ → δ → Prop} {f : α → γ} {g : β → δ} (h : Matched R as bs)
    (hfg : ∀ a b, R a b → S (f a) (g b)) : Matched S (as.map f) (bs.map g) := by
  constructor
  · rw [List.forall_mem_map]
    intro a ha
    obtain ⟨b, hb, hab⟩ := h.left a ha
    exact ⟨g b, List.mem_map_of_mem hb, hfg a b hab⟩
  · rw [List.forall_mem_map]
    intro b hb
    obtain ⟨a, ha, hab⟩ := h.right b hb
    exact ⟨f a, List.mem_map_of_mem ha, hfg a b hab⟩

theorem exists_iff {P : α → Prop} {Q : β → Prop} (h : Matched R as bs)
    (hPQ : ∀ a b, R a b → (P a ↔ Q b)) : (∃ a ∈ as, P a) ↔ ∃ b ∈ bs, Q b := by
  constructor
  · rintro ⟨a, ha, hP⟩
    obtain ⟨b, hb, hab⟩ := h.left a ha
    exact ⟨b, hb, (hPQ a b hab).mp hP⟩
  · rintro ⟨b, hb, hQ⟩
    obtain ⟨a, ha, hab⟩ := h.right b hb
    exact ⟨a, ha, (hPQ a b hab).mpr hQ⟩

theorem forall_iff {P : α → Prop} {Q : β → Prop} (h : Matched R as bs)
    (hPQ : ∀ a b, R a b → (P a ↔ Q b)) : (∀ a ∈ as, P a) ↔ ∀ b ∈ bs, Q b := by
  constructor
  · intro hall b hb
    obtain ⟨a, ha, hab⟩ := h.right b hb
    exact (hPQ a b hab).mp (hall a ha)
  · intro hall a ha
    obtain ⟨b, hb, hab⟩ := h.left a ha
    exact (hPQ a b hab).mpr (hall b hb)

theorem any_eq {p : α → Bool} {q : β → Bool} (h : Matched R as bs)
    (hpq : ∀ a b, R a b → p a = q b) : as.any p = bs.any q := by
  rw [Bool.eq_iff_iff, List.any_eq_true, List.any_eq_true]
  exact h.exists_iff fun a b hab => by rw [hpq a b hab]

theorem eq_nil_iff (h : Matched R as bs) : as = [] ↔ bs = [] := by
  simpa [List.eq_nil_iff_forall_not_mem] using
    h.forall_iff (P := fun _ => False) (Q := fun _ => False) fun _ _ _ => Iff.rfl

end Matched

end Allowlist
