import Mathlib.Data.List.Forall2

/-!
# Proofs.Outcome — steps that can fail, and when they succeed

A chain of steps succeeds when each of its steps does.  Proofs about successful runs open a chain
with these equivalences and never unfold the monad.  Two chains that may differ in errors of one
kind are compared step by step, as far as the first avoids these errors (`Avoids`).
-/

namespace Allowlist.Outcome

variable {α β ε ε' : Type}

theorem bind_eq_ok_iff {x : Except ε α} {f : α → Except ε β} {b : β} :
    x >>= f = .ok b ↔ ∃ a, x = .ok a ∧ f a = .ok b := by
  cases x with
  | error e => simp [bind, Except.bind]
  | ok a => simp [bind, Except.bind]

theorem map_eq_ok_iff {x : Except ε α} {f : α → β} {b : β} :
    x.map f = .ok b ↔ ∃ a, x = .ok a ∧ f a = b := by
  cases x with
  | error e => simp [Except.map]
  | ok a => simp [Except.map]

theorem map_eq_error_iff {x : Except ε α} {f : α → β} {e : ε} :
    x.map f = .error e ↔ x = .error e := by
  cases x <;> simp [Except.map]

@[simp] theorem mapError_eq_ok_iff {x : Except ε α} {f : ε → ε'} {a : α} :
    x.mapError f = .ok a ↔ x = .ok a := by
  cases x <;> simp [Except.mapError]

@[simp] theorem toOption_eq_some_iff {x : Except ε α} {a : α} :
    x.toOption = some a ↔ x = .ok a := by
  cases x <;> simp [Except.toOption]

theorem mapM_eq_ok_iff {f : α → Except ε β} {as : List α} {bs : List β} :
    as.mapM f = .ok bs ↔ List.Forall₂ (fun a b => f a = .ok b) as bs := by
  induction as generalizing bs with
  | nil => simp [pure, Except.pure, eq_comm]
  | cons a as ih =>
    rw [List.mapM_cons]
    simp only [bind_eq_ok_iff, ih, pure, Except.pure, Except.ok.injEq]
    constructor
    · rintro ⟨b, hb, bs', hbs, rfl⟩
      exact .cons hb hbs
    · intro h
      cases h with
      | cons hb hbs => exact ⟨_, hb, _, hbs, rfl⟩

theorem exists_mapM_iff {f : α → Except ε β} {as : List α} :
    (∃ bs, as.mapM f = .ok bs) ↔ ∀ a ∈ as, ∃ b, f a = .ok b := by
  simp only [mapM_eq_ok_iff]
  induction as with
  | nil => simp
  | cons a as ih =>
    rw [List.forall_mem_cons, ← ih]
    constructor
    · rintro ⟨bs, hall⟩
      cases hall with
      | cons hb hbs => exact ⟨⟨_, hb⟩, _, hbs⟩
    · rintro ⟨⟨b, hb⟩, bs, hbs⟩
      exact ⟨b :: bs, .cons hb hbs⟩

theorem mapM_eq_some_iff {f : α → Option β} {as : List α} {bs : List β} :
    as.mapM f = some bs ↔ List.Forall₂ (fun a b => f a = some b) as bs := by
  induction as generalizing bs with
  | nil => simp [eq_comm]
  | cons a as ih =>
    rw [List.mapM_cons]
    simp only [Option.bind_eq_bind, Option.bind_eq_some_iff, ih, Option.pure_def,
      Option.some.injEq]
    constructor
    · rintro ⟨b, hb, bs', hbs, rfl⟩
      exact .cons hb hbs
    · intro h
      cases h with
      | cons hb hbs => exact ⟨_, hb, _, hbs, rfl⟩

/-- The results are those of the single steps. -/
theorem mem_mapM_iff {f : α → Except ε β} {as : List α} {bs : List β} (h : as.mapM f = .ok bs)
    {b : β} : b ∈ bs ↔ ∃ a ∈ as, f a = .ok b := by
  have hall := mapM_eq_ok_iff.mp h
  clear h
  induction hall with
  | nil => simp
  | cons hab _ ih =>
    simp only [List.exists_mem_cons_iff, hab, Except.ok.injEq]
    exact List.mem_cons.trans (or_congr eq_comm ih)

/-- Steps that are made one by one fail at one of them. -/
theorem exists_mapM_error {f : α → Except ε β} {as : List α} {e : ε} (h : as.mapM f = .error e) :
    ∃ a ∈ as, f a = .error e := by
  induction as with
  | nil => cases h
  | cons a as ih =>
    rw [List.mapM_cons] at h
    cases hstep : f a with
    | error e' =>
      rw [hstep] at h
      cases h
      exact ⟨a, List.mem_cons_self, hstep⟩
    | ok b =>
      cases hrest : as.mapM f with
      | error e' =>
        rw [hstep, hrest] at h
        cases h
        obtain ⟨a', hmem, hfail⟩ := ih hrest
        exact ⟨a', List.mem_cons_of_mem _ hmem, hfail⟩
      | ok bs =>
        rw [hstep, hrest] at h
        cases h

/-- A check of each element passes when it passes at every one. -/
theorem forM_eq_ok_iff {f : α → Except ε Unit} {as : List α} :
    as.forM f = .ok () ↔ ∀ a ∈ as, f a = .ok () := by
  induction as with
  | nil => exact iff_of_true rfl nofun
  | cons a as ih =>
    have hcons : (a :: as).forM f = f a >>= fun _ => as.forM f := rfl
    rw [hcons, bind_eq_ok_iff, List.forall_mem_cons, ← ih]
    exact ⟨fun ⟨_, hfirst, hrest⟩ => ⟨hfirst, hrest⟩, fun ⟨hfirst, hrest⟩ => ⟨(), hfirst, hrest⟩⟩

theorem foldlM_cons_eq_ok_iff {f : β → α → Except ε β} {b c : β} {a : α} {as : List α} :
    (a :: as).foldlM f b = .ok c ↔ ∃ b', f b a = .ok b' ∧ as.foldlM f b' = .ok c := by
  rw [List.foldlM_cons, bind_eq_ok_iff]

/-- A run of steps fails at the first of its steps that does. -/
theorem exists_front_of_foldlM_error {f : β → α → Except ε β} {as : List α} {b : β} {e : ε}
    (h : as.foldlM f b = .error e) :
    ∃ front a back b', as = front ++ a :: back ∧ front.foldlM f b = .ok b' ∧ f b' a = .error e := by
  induction as generalizing b with
  | nil => cases h
  | cons a as ih =>
    rw [List.foldlM_cons] at h
    cases hstep : f b a with
    | error e' =>
      rw [hstep] at h
      cases h
      exact ⟨[], a, as, b, rfl, rfl, hstep⟩
    | ok next =>
      rw [hstep] at h
      obtain ⟨front, a', back, b', rfl, hfront, hfail⟩ := ih h
      refine ⟨a :: front, a', back, b', rfl, ?_, hfail⟩
      rw [List.foldlM_cons, hstep]
      exact hfront

theorem exists_step_of_foldlM_error {f : β → α → Except ε β} {as : List α} {b : β} {e : ε}
    (h : as.foldlM f b = .error e) : ∃ b' a, a ∈ as ∧ f b' a = .error e := by
  obtain ⟨front, a, back, b', rfl, -, hfail⟩ := exists_front_of_foldlM_error h
  exact ⟨b', a, by simp, hfail⟩

/-- What every step keeps, a run of steps keeps. -/
theorem foldlM_induction {f : β → α → Except ε β} {P : β → Prop} {as : List α} {b c : β}
    (hb : P b) (step : ∀ b a b', a ∈ as → P b → f b a = .ok b' → P b')
    (h : as.foldlM f b = .ok c) : P c := by
  induction as generalizing b with
  | nil =>
    cases h
    exact hb
  | cons a as ih =>
    obtain ⟨b', hb', h⟩ := foldlM_cons_eq_ok_iff.mp h
    exact ih (step b a b' List.mem_cons_self hb hb')
      (fun b a b' ha => step b a b' (List.mem_cons_of_mem _ ha)) h

/-! ### Errors that do not occur -/

/-- The result is not an error of the bad kind. -/
def Avoids (bad : ε → Prop) (x : Except ε α) : Prop := ∀ e, x = .error e → ¬ bad e

namespace Avoids

variable {bad : ε → Prop}

theorem ok (a : α) : Avoids bad (.ok a : Except ε α) := nofun

theorem error_iff {e : ε} : Avoids bad (.error e : Except ε α) ↔ ¬ bad e := by
  constructor
  · exact fun h => h e rfl
  · rintro h e' he
    cases he
    exact h

theorem exists_of_not {x : Except ε α} (h : ¬ Avoids bad x) : ∃ e, x = .error e ∧ bad e := by
  simpa only [Avoids, not_forall, not_not, exists_prop] using h

/-- Two chains give the same result if their steps do wherever the first chain avoids the bad
errors. -/
theorem bind_congr {x x' : Except ε α} {f f' : α → Except ε β} (h : Avoids bad (x >>= f))
    (hx : Avoids bad x → x' = x) (hf : ∀ a, x = .ok a → Avoids bad (f a) → f' a = f a) :
    x' >>= f' = x >>= f := by
  cases x with
  | error e =>
    rw [hx (error_iff.mpr (error_iff.mp h))]
    rfl
  | ok a =>
    rw [hx (.ok a)]
    exact hf a rfl h

theorem map_congr {x x' : Except ε α} {f : α → β} (h : Avoids bad (x.map f))
    (hx : Avoids bad x → x' = x) : x'.map f = x.map f := by
  rw [hx fun e he => h e (map_eq_error_iff.mpr he)]

theorem foldlM_congr {f f' : β → α → Except ε β} {as : List α} {b : β} (P : β → Prop) (hb : P b)
    (hf : ∀ b a, a ∈ as → P b → Avoids bad (f b a) → f' b a = f b a)
    (hP : ∀ b a b', a ∈ as → P b → f b a = .ok b' → P b') (h : Avoids bad (as.foldlM f b)) :
    as.foldlM f' b = as.foldlM f b := by
  induction as generalizing b with
  | nil => rfl
  | cons a as ih =>
    rw [List.foldlM_cons] at h ⊢
    rw [List.foldlM_cons]
    refine h.bind_congr (hf b a List.mem_cons_self hb) fun b' hb' => ?_
    exact ih (hP b a b' List.mem_cons_self hb hb')
      (fun b a ha => hf b a (List.mem_cons_of_mem _ ha))
      fun b a b' ha => hP b a b' (List.mem_cons_of_mem _ ha)

theorem mapM_congr {f f' : α → Except ε β} {as : List α}
    (hf : ∀ a ∈ as, Avoids bad (f a) → f' a = f a) (h : Avoids bad (as.mapM f)) :
    as.mapM f' = as.mapM f := by
  induction as with
  | nil => rfl
  | cons a as ih =>
    rw [List.mapM_cons] at h ⊢
    rw [List.mapM_cons]
    refine h.bind_congr (hf a List.mem_cons_self) fun b _ hrest => ?_
    exact hrest.bind_congr (ih fun a ha => hf a (List.mem_cons_of_mem _ ha)) fun _ _ _ => rfl

end Avoids

end Allowlist.Outcome
