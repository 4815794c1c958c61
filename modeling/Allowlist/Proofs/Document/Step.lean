import Allowlist.Document
import Mathlib.Data.List.Basic
import Mathlib.Tactic.SplitIfs

/-!
# Proofs.Document.Step — the steps of a key, and keys in conflict

Every path reads as steps (`Path.steps?`).  A number that no array can count to is a step too, but
one that does not fit.  Two keys conflict when, after the members and positions that they share,
one of them ends, or one goes on in an object and the other in an array (`Step.Conflict`).
-/

namespace Allowlist

/-! ### Reading steps -/

/-- The step that a hop spells, however great its number is. -/
def Hop.reading (hop : Hop) : Step :=
  match hop.text? with
  | none => .append
  | some text =>
    if isDecimal text then .index (Nat.ofDigitChars 10 text.toList 0) else .member text

theorem Hop.reading_eq_append_iff {hop : Hop} : hop.reading = .append ↔ hop = .anonymous := by
  cases hop with
  | anonymous => exact iff_of_true rfl rfl
  | name text =>
    refine iff_of_false ?_ nofun
    simp only [reading, text?]
    split_ifs <;> nofun
  | bracket text =>
    refine iff_of_false ?_ nofun
    simp only [reading, text?]
    split_ifs <;> nofun

/-- An array can count to the position, if the step has one. -/
def Step.Fits : Step → Prop
  | .index position => position < positionBound
  | _ => True

instance (step : Step) : Decidable step.Fits := by
  cases step <;> unfold Step.Fits <;> infer_instance

theorem Hop.step?_eq_some_iff {hop : Hop} {step : Step} :
    hop.step? = some step ↔ hop.reading = step ∧ step.Fits := by
  unfold step? reading
  cases hop.text? with
  | none =>
    dsimp only
    rw [Option.some.injEq]
    exact ⟨fun h => ⟨h, h ▸ trivial⟩, And.left⟩
  | some text =>
    dsimp only
    split_ifs with hdecimal hbound
    · rw [Option.some.injEq]
      exact ⟨fun h => ⟨h, h ▸ hbound⟩, And.left⟩
    · exact iff_of_false nofun fun h => hbound (h.1 ▸ h.2 : (Step.index _).Fits)
    · rw [Option.some.injEq]
      exact ⟨fun h => ⟨h, h ▸ trivial⟩, And.left⟩

/-- The steps that a path spells. -/
def Path.steps? (path : String) : Option (List Step) :=
  (tokenize? path).map (·.map Hop.reading)

theorem mapM_step?_eq_some_iff {hops : List Hop} {steps : List Step} :
    hops.mapM Hop.step? = some steps ↔
      hops.map Hop.reading = steps ∧ ∀ step ∈ steps, step.Fits := by
  induction hops generalizing steps with
  | nil =>
    rw [List.mapM_nil, Option.pure_def, Option.some.injEq, List.map_nil]
    exact ⟨fun h => ⟨h, h ▸ nofun⟩, And.left⟩
  | cons hop hops ih =>
    rw [List.mapM_cons]
    simp only [Option.bind_eq_bind, Option.bind_eq_some_iff, Hop.step?_eq_some_iff, ih,
      Option.pure_def, Option.some.injEq, List.map_cons]
    constructor
    · rintro ⟨step, ⟨rfl, hstep⟩, rest, ⟨rfl, hrest⟩, rfl⟩
      exact ⟨rfl, List.forall_mem_cons.mpr ⟨hstep, hrest⟩⟩
    · rintro ⟨rfl, hfits⟩
      obtain ⟨hstep, hrest⟩ := List.forall_mem_cons.mp hfits
      exact ⟨_, ⟨rfl, hstep⟩, _, ⟨rfl, hrest⟩, rfl⟩

/-! ### Conflicts -/

namespace Step

/-- The step goes on in an object. -/
def isMember : Step → Bool
  | member _ => true
  | _ => false

/-- What is left of two lists of steps without the longest list of members and positions that both
start with. -/
def apart : List Step → List Step → List Step × List Step
  | a :: as, b :: bs => if a = b ∧ a ≠ append then apart as bs else (a :: as, b :: bs)
  | as, bs => (as, bs)

/-- Where the lists part, one has no step left, or one goes on in an object and the other in an
array. -/
def Conflict (as bs : List Step) : Prop :=
  match apart as bs with
  | (a :: _, b :: _) => a.isMember ≠ b.isMember
  | _ => True

instance (as bs : List Step) : Decidable (Conflict as bs) := by
  unfold Conflict
  split <;> infer_instance

@[simp] theorem conflict_nil_left (bs : List Step) : Conflict [] bs := by
  simp [Conflict, apart]

@[simp] theorem conflict_nil_right (as : List Step) : Conflict as [] := by
  cases as <;> simp [Conflict, apart]

/-- A common first member or position is passed over. -/
theorem conflict_cons_self {a : Step} (h : a ≠ append) (as bs : List Step) :
    Conflict (a :: as) (a :: bs) ↔ Conflict as bs := by
  simp [Conflict, apart, h]

/-- Appending steps and different steps decide by themselves. -/
theorem conflict_cons_of_ne {a b : Step} (h : a ≠ b ∨ a = append) (as bs : List Step) :
    Conflict (a :: as) (b :: bs) ↔ a.isMember ≠ b.isMember := by
  have hsplit : ¬ (a = b ∧ a ≠ append) := by tauto
  simp [Conflict, apart, hsplit]

/-- There is no conflict when both go on alike, and what follows a common first member or position
does not conflict. -/
theorem not_conflict_cons_iff {as bs : List Step} {b : Step} :
    ¬ Conflict as (b :: bs) ↔ ∃ a rest, as = a :: rest ∧ a.isMember = b.isMember ∧
      (a = b → b ≠ append → ¬ Conflict rest bs) := by
  cases as with
  | nil => simp
  | cons a rest =>
    by_cases hab : a = b ∧ b ≠ append
    · obtain ⟨rfl, ha⟩ := hab
      rw [conflict_cons_self ha]
      constructor
      · exact fun h => ⟨a, rest, rfl, rfl, fun _ _ => h⟩
      · rintro ⟨_, _, he, -, h⟩
        cases he
        exact h rfl ha
    · have hne : a ≠ b ∨ a = append := by
        by_cases he : a = b
        · exact .inr (he ▸ not_not.mp fun hb => hab ⟨he, hb⟩)
        · exact .inl he
      rw [conflict_cons_of_ne hne, not_not]
      constructor
      · exact fun h => ⟨a, rest, rfl, h, fun he hb => absurd ⟨he, hb⟩ hab⟩
      · rintro ⟨_, _, he, h, -⟩
        cases he
        exact h

theorem Conflict.symm {as bs : List Step} (h : Conflict as bs) : Conflict bs as := by
  induction as generalizing bs with
  | nil => simp
  | cons a as ih =>
    cases bs with
    | nil => simp
    | cons b bs =>
      by_cases hab : a ≠ b ∨ a = append
      · rw [conflict_cons_of_ne hab] at h
        have hba : b ≠ a ∨ b = append := by
          rcases hab with hab | rfl
          · exact .inl hab.symm
          · exact (eq_or_ne b append).symm
        exact (conflict_cons_of_ne hba bs as).mpr h.symm
      · obtain ⟨rfl, ha⟩ := not_or.mp hab |>.imp_left not_not.mp
        rw [conflict_cons_self ha] at h ⊢
        exact ih h

end Step

end Allowlist
