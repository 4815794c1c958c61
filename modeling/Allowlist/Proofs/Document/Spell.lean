import Allowlist.Proofs.Document.Address
import Allowlist.Proofs.Document.Step

/-!
# Proofs.Document.Spell — the path that spells given steps

The first step stands bare and each further one in brackets (`Path.ofSteps`).  Such a path reads as
the steps again, if its names are names of members, its positions fit, and only the last step
appends (`Path.steps?_ofSteps`).
-/

namespace Allowlist

/-- A name that a path can spell as one of a member: without brackets, neither empty nor a
number. -/
structure IsMemberName (name : String) : Prop where
  plain : Path.Plain name.toList
  not_decimal : isDecimal name = false

theorem isMemberName_iff {name : String} :
    IsMemberName name ↔
      name.toList ≠ [] ∧ name.toList.all Path.isPlain = true ∧ isDecimal name = false := by
  rw [List.all_eq_true]
  exact ⟨fun h => ⟨h.plain.ne_nil, h.plain.plain, h.not_decimal⟩, fun h => ⟨⟨h.1, h.2.1⟩, h.2.2⟩⟩

instance (name : String) : Decidable (IsMemberName name) :=
  decidable_of_iff _ isMemberName_iff.symm

namespace Step

/-- The hop that spells the step at the start of a path. -/
def bare : Step → Hop
  | .member name => .name name
  | .index position => .name (toString position)
  | .append => .anonymous

/-- Steps can go on after this one, and a path can spell it. -/
def LeadsOn : Step → Prop
  | .member name => IsMemberName name
  | .index position => position < positionBound
  | .append => False

/-- Steps that a path can spell: only the last of them appends. -/
inductive Spelled : List Step → Prop
  | nil : Spelled []
  | append : Spelled [.append]
  | cons {step : Step} {rest : List Step} : step.LeadsOn → Spelled rest → Spelled (step :: rest)

theorem LeadsOn.ne_append {step : Step} (h : step.LeadsOn) : step ≠ .append := by
  rintro rfl
  exact h

theorem LeadsOn.fits {step : Step} (h : step.LeadsOn) : step.Fits := by
  cases step with
  | member name => trivial
  | index position => exact h
  | append => trivial

theorem Spelled.fits {steps : List Step} (h : Spelled steps) : ∀ step ∈ steps, step.Fits := by
  induction h with
  | nil => exact nofun
  | append => simp [Fits]
  | cons hstep _ ih => exact List.forall_mem_cons.mpr ⟨hstep.fits, ih⟩

/-- The hops of a step that leads on are its text, bare or in brackets, and read as the step. -/
theorem LeadsOn.exists_text {step : Step} (h : step.LeadsOn) :
    ∃ text, Path.Plain text ∧ step.bare = .name (String.ofList text) ∧
      step.hop = .bracket (String.ofList text) ∧ step.bare.reading = step ∧
      step.hop.reading = step := by
  cases step with
  | member name =>
    refine ⟨name.toList, h.plain, ?_, ?_, ?_, ?_⟩
    · rw [String.ofList_toList, bare]
    · rw [String.ofList_toList, hop]
    · simp [Hop.reading, bare, Hop.text?, h.not_decimal]
    · simp [Hop.reading, hop, Hop.text?, h.not_decimal]
  | index position =>
    have hplain := Path.plain_of_isDecimal (isDecimal_toString position)
    refine ⟨(toString position).toList, hplain, ?_, ?_, ?_, ?_⟩
    · rw [String.ofList_toList, bare]
    · rw [String.ofList_toList, hop]
    · rw [Hop.reading, bare, Hop.text?]
      dsimp only
      rw [if_pos (isDecimal_toString position), ofDigitChars_toString]
    · rw [Hop.reading, hop, Hop.text?]
      dsimp only
      rw [if_pos (isDecimal_toString position), ofDigitChars_toString]
  | append => exact h.elim

/-- Spelled steps are groups of a path. -/
theorem Spelled.groups {steps : List Step} (h : Spelled steps) :
    Path.GroupsText (Path.render (steps.map hop)).toList (steps.map hop) ∧
      (steps.map hop).map Hop.reading = steps := by
  induction h with
  | nil => exact ⟨.nil, rfl⟩
  | append => exact ⟨.anonymous, rfl⟩
  | @cons step rest hstep _ ih =>
    obtain ⟨text, hplain, -, hhop, -, hreading⟩ := hstep.exists_text
    obtain ⟨hgroups, hrest⟩ := ih
    refine ⟨?_, ?_⟩
    · have htext : (Path.render ((step :: rest).map hop)).toList =
          '[' :: (text ++ ']' :: (Path.render (rest.map hop)).toList) := by
        rw [List.map_cons, hhop]
        simp [Path.render, Hop.render, String.toList_append]
      rw [htext, List.map_cons, hhop]
      exact .bracket hplain hgroups
    · rw [List.map_cons, List.map_cons, hreading, hrest]

end Step

namespace Path

/-- The path whose first step stands bare, and each further one in brackets. -/
def ofSteps : List Step → String
  | [] => ""
  | first :: rest => render (first.bare :: rest.map Step.hop)

/-- The path of spelled steps reads as these steps. -/
theorem steps?_ofSteps {steps : List Step} (h : Step.Spelled steps) (hne : steps ≠ []) :
    steps? (ofSteps steps) = some steps := by
  cases h with
  | nil => exact absurd rfl hne
  | append => decide +kernel
  | @cons step rest hstep hrest =>
    obtain ⟨text, hplain, hbare, -, hreading, -⟩ := hstep.exists_text
    obtain ⟨hgroups, hreadings⟩ := hrest.groups
    have htext : (ofSteps (step :: rest)).toList =
        text ++ (render (rest.map Step.hop)).toList := by
      rw [ofSteps, hbare]
      simp [render, Hop.render, String.toList_append]
    have hpath : PathText (ofSteps (step :: rest)).toList (step.bare :: rest.map Step.hop) := by
      rw [htext, hbare]
      exact .head hplain hgroups
    rw [steps?, tokenize?_eq_some_iff.mpr hpath, Option.map_some, List.map_cons, hreading,
      hreadings]

end Path

end Allowlist
