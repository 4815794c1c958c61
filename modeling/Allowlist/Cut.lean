/-!
# Cut — a list around one of its elements

`first? f` cuts a list at the first element on which `f` answers, `last? f` at the last one.  The
result is the part before that element, the answer, and the part after it.
-/

namespace Allowlist.Cut

variable {α β : Type}

/-- The cut at the first element on which `f` answers. -/
def first? (f : α → Option β) : List α → Option (List α × β × List α)
  | [] => none
  | a :: as =>
    match f a with
    | some b => some ([], b, as)
    | none => (first? f as).map fun (front, b, back) => (a :: front, b, back)

/-- The cut at the last element on which `f` answers. -/
def last? (f : α → Option β) : List α → Option (List α × β × List α)
  | [] => none
  | a :: as =>
    match last? f as with
    | some (front, b, back) => some (a :: front, b, back)
    | none => (f a).map fun b => ([], b, as)

/-- The parts of a first cut put together again, and why it is the first. -/
theorem eq_of_first? {f : α → Option β} {as front back : List α} {b : β}
    (h : first? f as = some (front, b, back)) :
    ∃ a, as = front ++ a :: back ∧ f a = some b ∧ ∀ x ∈ front, f x = none := by
  induction as generalizing front with
  | nil => simp [first?] at h
  | cons a as ih =>
    rw [first?] at h
    split at h
    · next b' hb =>
      simp only [Option.some.injEq, Prod.mk.injEq] at h
      obtain ⟨rfl, rfl, rfl⟩ := h
      exact ⟨a, rfl, hb, by simp⟩
    · next hn =>
      obtain ⟨⟨front', b', back'⟩, hc, he⟩ := Option.map_eq_some_iff.1 h
      simp only [Prod.mk.injEq] at he
      obtain ⟨rfl, rfl, rfl⟩ := he
      obtain ⟨x, rfl, hx, hf⟩ := ih hc
      exact ⟨x, rfl, hx, by simpa [hn] using hf⟩

/-- The parts of a last cut put together again, and why it is the last. -/
theorem eq_of_last? {f : α → Option β} {as front back : List α} {b : β}
    (h : last? f as = some (front, b, back)) :
    ∃ a, as = front ++ a :: back ∧ f a = some b ∧ ∀ x ∈ back, f x = none := by
  induction as generalizing front with
  | nil => simp [last?] at h
  | cons a as ih =>
    rw [last?] at h
    split at h
    · next front' b' back' hc =>
      simp only [Option.some.injEq, Prod.mk.injEq] at h
      obtain ⟨rfl, rfl, rfl⟩ := h
      obtain ⟨x, rfl, hx, hf⟩ := ih hc
      exact ⟨x, rfl, hx, hf⟩
    · next hc =>
      obtain ⟨b', hb, he⟩ := Option.map_eq_some_iff.1 h
      simp only [Prod.mk.injEq] at he
      obtain ⟨rfl, rfl, rfl⟩ := he
      exact ⟨a, rfl, hb, forall_eq_none_of_last? hc⟩
where
  forall_eq_none_of_last? {f : α → Option β} {as : List α} (h : last? f as = none) :
      ∀ x ∈ as, f x = none := by
    induction as with
    | nil => simp
    | cons a as ih =>
      rw [last?] at h
      split at h
      · simp at h
      · next hc =>
        have ha : f a = none := by simpa using h
        simpa [ha] using ih hc

end Allowlist.Cut
