import Allowlist.Proofs.Rule.Group
import Allowlist.Proofs.Rule.Symbol
import Allowlist.Rule.Reduction
import Mathlib.Logic.Relation

/-!
# Proofs.Rule.Reduction — what a step does, and when a run succeeds

A step puts a reference in the place of one innermost group (`step_eq_some_iff`); a run succeeds
when its steps lead to a text without delimiters and that text denotes a shape (`run_eq_ok_iff`).
All that is proved about runs is proved about one step and carried along `Steps`.
-/

namespace Allowlist.Rule

open Allowlist.Rule.Symbol

namespace Reduction

theorem exact_start (chars : List Char) : (start chars).slots.Exact :=
  fun i p hp => by simp [start] at hp

variable [Shape.MemberOrder]

/-- The step from one state to the next. -/
def Next (state next : Reduction) : Prop := state.step = .ok (some next)

/-- Any number of steps. -/
abbrev Steps : Reduction → Reduction → Prop := Relation.ReflTransGen Next

/-! ### One step -/

/-- A step builds one innermost group and parks it behind the slots that this leaves. -/
theorem next_iff {state next : Reduction} :
    state.Next next ↔
      ∃ group parked slots, state.text = Innermost.text group ∧ group.Valid ∧
        Group.build group.kind group.body state.slots = .ok (parked, slots) ∧
        next = ⟨group.replace slots.length, slots ++ [some parked]⟩ := by
  unfold Next step
  rw [Outcome.bind_eq_ok_iff]
  constructor
  · rintro ⟨found, hfound, h⟩
    cases found with
    | none => cases h
    | some group =>
      obtain ⟨⟨parked, slots⟩, hbuild, h⟩ := Outcome.bind_eq_ok_iff.mp h
      cases h
      obtain ⟨htext, hvalid⟩ := innermost?_eq_some_iff.mp hfound
      exact ⟨group, parked, slots, htext, hvalid, hbuild, rfl⟩
  · rintro ⟨group, parked, slots, htext, hvalid, hbuild, rfl⟩
    refine ⟨some group, innermost?_eq_some_iff.mpr ⟨htext, hvalid⟩, ?_⟩
    exact Outcome.bind_eq_ok_iff.mpr ⟨(parked, slots), hbuild, rfl⟩

/-- The steps end when no delimiter is left. -/
theorem step_eq_none_iff {state : Reduction} :
    state.step = .ok none ↔ ∀ s ∈ state.text, s.closes? = none ∧ s.opens? = none := by
  rw [← innermost?_eq_none_iff]
  unfold step
  rw [Outcome.bind_eq_ok_iff]
  constructor
  · rintro ⟨found, hfound, h⟩
    cases found with
    | none => exact hfound
    | some group =>
      obtain ⟨built, -, h⟩ := Outcome.bind_eq_ok_iff.mp h
      cases h
  · intro h
    exact ⟨none, h, rfl⟩

/-- A step fails where the group is looked for, or where it is built. -/
theorem step_error_cases {state : Reduction} {fault : Fault} (h : state.step = .error fault) :
    innermost? state.text = .error fault ∨
      ∃ group, innermost? state.text = .ok (some group) ∧
        Group.build group.kind group.body state.slots = .error fault := by
  unfold step at h
  cases hfound : innermost? state.text with
  | error e =>
    rw [hfound] at h
    cases h
    exact .inl rfl
  | ok found =>
    rw [hfound] at h
    cases found with
    | none => cases h
    | some group =>
      refine .inr ⟨group, rfl, ?_⟩
      cases hbuild : Group.build group.kind group.body state.slots with
      | error e => simpa [bind, Except.bind, hbuild] using h
      | ok built => simp [bind, Except.bind, hbuild, pure, Except.pure] at h

theorem Next.exact {state next : Reduction} (h : state.Next next) (hs : state.slots.Exact) :
    next.slots.Exact := by
  obtain ⟨group, parked, slots, -, -, hbuild, rfl⟩ := next_iff.mp h
  obtain ⟨hparked, hslots⟩ := Group.build_exact hs hbuild
  intro i p hp
  rcases Slots.getElem?_park hp with hp | ⟨-, rfl⟩
  · exact hslots i p hp
  · exact hparked

theorem Steps.exact {state last : Reduction} (h : Steps state last) (hs : state.slots.Exact) :
    last.slots.Exact := by
  induction h with
  | refl => exact hs
  | tail _ hnext ih => exact hnext.exact ih

/-! ### Runs -/

theorem run_of_error {state : Reduction} {fault : Fault} (h : state.step = .error fault) :
    state.run = .error fault := by
  rw [run]
  split <;> simp_all

theorem run_of_none {state : Reduction} (h : state.step = .ok none) : state.run = state.finish := by
  rw [run]
  split <;> simp_all

theorem run_of_next {state next : Reduction} (h : state.Next next) : state.run = next.run := by
  unfold Next at h
  rw [run]
  split <;> simp_all

/-- A run succeeds when steps lead to a text without delimiters that denotes a shape. -/
theorem run_eq_ok_iff {state : Reduction} {shape : Shape} :
    state.run = .ok shape ↔
      ∃ last, Steps state last ∧ last.step = .ok none ∧ last.finish = .ok shape := by
  induction state using Reduction.run.induct with
  | case1 state e he =>
    rw [run_of_error he]
    refine iff_of_false nofun ?_
    rintro ⟨last, hsteps, hlast, -⟩
    rcases hsteps.cases_head with rfl | ⟨next, hnext, -⟩
    · simp [he] at hlast
    · simp [Next, he] at hnext
  | case2 state hnone =>
    rw [run_of_none hnone]
    constructor
    · intro h
      exact ⟨state, .refl, hnone, h⟩
    · rintro ⟨last, hsteps, hlast, h⟩
      rcases hsteps.cases_head with rfl | ⟨next, hnext, -⟩
      · exact h
      · simp [Next, hnone] at hnext
  | case3 state next hnext ih =>
    rw [run_of_next hnext, ih]
    constructor
    · rintro ⟨last, hsteps, hlast, h⟩
      exact ⟨last, .head hnext hsteps, hlast, h⟩
    · rintro ⟨last, hsteps, hlast, h⟩
      rcases hsteps.cases_head with rfl | ⟨next', hnext', hsteps⟩
      · simp [hnext] at hlast
      · have he : next' = next := by simpa [Next, hnext, eq_comm] using hnext'
        exact ⟨last, he ▸ hsteps, hlast, h⟩

/-- What is left of the text is one reference. -/
theorem finish_of_reference {state : Reduction} {index : Nat}
    (h : trim state.text = [.group index]) :
    state.finish = (state.slots.take index).map fun built => built.1.shape := by
  simp only [finish, reference?_eq_some_iff.mpr h]
  cases state.slots.take index <;> rfl

/-- What is left of the text is the body of an object. -/
theorem finish_of_entries {state : Reduction} (h : ∀ index, trim state.text ≠ [.group index]) :
    state.finish =
      (Group.build .object (trim state.text) state.slots).map fun built => built.1.shape := by
  have href : Entry.reference? (trim state.text) = none := by
    cases href : Entry.reference? (trim state.text) with
    | none => rfl
    | some index => exact absurd (reference?_eq_some_iff.mp href) (h index)
  simp only [finish, href]
  cases Group.build .object (trim state.text) state.slots <;> rfl

/-- What is left is one reference, or the entries of an object. -/
theorem finish_eq_ok_iff {state : Reduction} {shape : Shape} :
    state.finish = .ok shape ↔
      ∃ parked, parked.shape = shape ∧
        ((∃ index, trim state.text = [.group index] ∧
            state.slots[index]? = some (some parked)) ∨
          (∀ index, trim state.text ≠ [.group index]) ∧
            ∃ slots, Group.build .object (trim state.text) state.slots = .ok (parked, slots)) := by
  by_cases href : ∃ index, trim state.text = [.group index]
  · obtain ⟨index, href⟩ := href
    rw [finish_of_reference href, href, Outcome.map_eq_ok_iff]
    constructor
    · rintro ⟨⟨parked, slots⟩, htake, rfl⟩
      exact ⟨parked, rfl, .inl ⟨index, rfl, (Slots.take_eq_ok_iff.mp htake).1⟩⟩
    · rintro ⟨parked, rfl, ⟨i, hi, hp⟩ | ⟨hnot, -⟩⟩
      · cases hi
        exact ⟨(parked, _), Slots.take_eq_ok_iff.mpr ⟨hp, rfl⟩, rfl⟩
      · exact absurd rfl (hnot index)
  · have hnot : ∀ index, trim state.text ≠ [.group index] := fun index h => href ⟨index, h⟩
    rw [finish_of_entries hnot, Outcome.map_eq_ok_iff]
    constructor
    · rintro ⟨⟨parked, slots⟩, hbuild, rfl⟩
      exact ⟨parked, rfl, .inr ⟨hnot, slots, hbuild⟩⟩
    · rintro ⟨parked, rfl, ⟨i, hi, -⟩ | ⟨-, slots, hbuild⟩⟩
      · exact absurd hi (hnot i)
      · exact ⟨(parked, slots), hbuild, rfl⟩

end Reduction

end Allowlist.Rule
