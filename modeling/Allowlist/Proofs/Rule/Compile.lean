import Allowlist.Proofs.Rule.Completeness
import Allowlist.Proofs.Rule.Soundness

/-!
# Proofs.Rule.Compile — which rules compile, and to what

`compile` refuses characters and blank rules before it reduces anything.  The grammar refuses the
same: every derived text holds characters of rules only (`Spells.isRuleChar`), and not only blanks
(`Spells.not_blank`).  So a rule compiles to a shape exactly when it is short enough and derives
from the grammar with a tree that denotes the shape.
-/

namespace Allowlist.Rule

/-! ### Characters of derived texts -/

theorem Blank.isRuleChar {p : List Char} (hp : Blank p) : ∀ c ∈ p, isRuleChar c = true := by
  intro c hc
  rw [hp c hc]
  decide

theorem KeyText.isRuleChar {name : String} {k : List Char} (hk : KeyText name k) :
    ∀ c ∈ k, isRuleChar c = true := by
  intro c hc
  rcases hk.char_cases hc with rfl | hc
  · decide
  · simp [Rule.isRuleChar, hc]

theorem isRuleChar_delimiters (kind : GroupKind) :
    isRuleChar kind.opener = true ∧ isRuleChar kind.closer = true := by
  cases kind <;> decide

mutual
theorem GroupText.isRuleChar : {tree : Tree} → {u : List Char} → GroupText tree u →
    ∀ c ∈ u, isRuleChar c = true
  | _, _, @GroupText.group kind _ body hbody, c, hc => by
    have hinside := hbody.isRuleChar
    obtain ⟨hopener, hcloser⟩ := isRuleChar_delimiters kind
    simp only [List.mem_cons, List.mem_append, List.not_mem_nil, or_false] at hc
    rcases hc with rfl | hc | rfl
    · exact hopener
    · exact hinside c hc
    · exact hcloser

theorem BodyText.isRuleChar : {kind : GroupKind} → {trees : List (Option String × Tree)} →
    {body : List Char} → BodyText kind trees body → ∀ c ∈ body, isRuleChar c = true
  | _, _, _, .blank hp => hp.isRuleChar
  | _, _, _, .entries hentries => hentries.isRuleChar

theorem EntriesText.isRuleChar : {kind : GroupKind} → {trees : List (Option String × Tree)} →
    {text : List Char} → EntriesText kind trees text → ∀ c ∈ text, isRuleChar c = true
  | _, _, _, .one hentry, c, hc => hentry.isRuleChar c hc
  | _, _, _, .cons hentry hmore, c, hc => by
    have hfirst := hentry.isRuleChar
    have hrest := hmore.isRuleChar
    rcases List.mem_append.mp hc with hc | hc
    · exact hfirst c hc
    · rcases List.mem_cons.mp hc with rfl | hc
      · decide
      · exact hrest c hc

theorem EntryText.isRuleChar : {kind : GroupKind} → {entry : Option String × Tree} →
    {text : List Char} → EntryText kind entry text → ∀ c ∈ text, isRuleChar c = true
  | _, _, _, .key hp hk hq, c, hc => by
    simp only [List.mem_append] at hc
    rcases hc with (hc | hc) | hc
    · exact hp.isRuleChar c hc
    · exact hk.isRuleChar c hc
    · exact hq.isRuleChar c hc
  | _, _, _, .keyed hp hk hq hr hu hs, c, hc => by
    have hgroup := hu.isRuleChar
    simp only [List.mem_append, List.mem_cons] at hc
    rcases hc with ((hc | hc) | hc) | rfl | (hc | hc) | hc
    · exact hp.isRuleChar c hc
    · exact hk.isRuleChar c hc
    · exact hq.isRuleChar c hc
    · decide
    · exact hr.isRuleChar c hc
    · exact hgroup c hc
    · exact hs.isRuleChar c hc
  | _, _, _, .alone hp hu hq, c, hc => by
    have hgroup := hu.isRuleChar
    simp only [List.mem_append] at hc
    rcases hc with (hc | hc) | hc
    · exact hp.isRuleChar c hc
    · exact hgroup c hc
    · exact hq.isRuleChar c hc
end

theorem Spells.isRuleChar {tree : Tree} {rule : List Char} (h : Spells tree rule) :
    ∀ c ∈ rule, isRuleChar c = true := by
  cases h with
  | group hp hu hq => exact (EntryText.alone hp hu hq).isRuleChar
  | entries htexts => exact htexts.isRuleChar

/-! ### Rules are not blank -/

theorem KeyText.not_blank {name : String} {k : List Char} (hk : KeyText name k) : ¬ Blank k := by
  intro hblank
  cases k with
  | nil => exact hk.ne_nil rfl
  | cons c k => exact hk.head?_ne_blank (by rw [hblank c (by simp)]; rfl)

theorem GroupText.not_blank {tree : Tree} {u : List Char} (hu : GroupText tree u) : ¬ Blank u := by
  intro hblank
  cases hu with
  | @group kind _ body hbody =>
    have hopener := hblank kind.opener (by simp)
    cases kind <;> exact absurd hopener (by decide)

theorem EntryText.not_blank {kind : GroupKind} {entry : Option String × Tree} {text : List Char}
    (h : EntryText kind entry text) : ¬ Blank text := by
  intro hblank
  cases h with
  | key hp hk hq => exact hk.not_blank fun c hc => hblank c (by simp [hc])
  | keyed hp hk hq hr hu hs => exact hk.not_blank fun c hc => hblank c (by simp [hc])
  | alone hp hu hq => exact hu.not_blank fun c hc => hblank c (by simp [hc])

theorem Spells.not_blank {tree : Tree} {rule : List Char} (h : Spells tree rule) :
    ¬ Blank rule := by
  intro hblank
  cases h with
  | group hp hu hq => exact hu.not_blank fun c hc => hblank c (by simp [hc])
  | entries htexts =>
    cases htexts with
    | one hentry => exact hentry.not_blank hblank
    | cons hentry hmore => exact hentry.not_blank fun c hc => hblank c (by simp [hc])

/-! ### Rules that compile -/

theorem invalidChars_eq_nil_iff {rule : String} :
    invalidChars rule = [] ↔ ∀ c ∈ rule.toList, isRuleChar c = true := by
  rw [invalidChars, List.eq_nil_iff_forall_not_mem]
  simp [Distinct.mem_ofList]

/-- The rule passes the checks that are made before anything is reduced. -/
structure Checked (rule : String) : Prop where
  length_le : rule.utf8ByteSize ≤ maxLength
  chars : invalidChars rule = []
  not_blank : ¬ Blank rule.toList

variable [Shape.MemberOrder]

/-- Past its checks, a rule compiles to what its reduction ends in. -/
theorem Checked.compile_eq {rule : String} (h : Checked rule) :
    compile rule = (Reduction.start rule.toList).run.mapError (.fault rule) := by
  have hblank : rule.toList.all (· == ' ') ≠ true := fun hall =>
    h.not_blank fun c hc => by simpa using List.all_eq_true.mp hall c hc
  rw [compile, if_neg (Nat.not_lt.mpr h.length_le), if_neg (not_not_intro h.chars), if_neg hblank]

/-- Past its checks, compiling is the run of the reduction. -/
theorem compile_eq_ok_iff_run {rule : String} {shape : Shape} :
    compile rule = .ok shape ↔
      rule.utf8ByteSize ≤ maxLength ∧ (∀ c ∈ rule.toList, isRuleChar c = true) ∧
        ¬ Blank rule.toList ∧ (Reduction.start rule.toList).run = .ok shape := by
  rw [← invalidChars_eq_nil_iff]
  unfold compile
  by_cases hlength : rule.utf8ByteSize > maxLength
  · rw [if_pos hlength]
    exact iff_of_false nofun fun h => absurd h.1 (by omega)
  · by_cases hchars : invalidChars rule = []
    · by_cases hblank : rule.toList.all (· == ' ') = true
      · have hall : Blank rule.toList := fun c hc => by simpa using List.all_eq_true.mp hblank c hc
        rw [if_neg hlength, if_neg (by simpa using hchars), if_pos hblank]
        exact iff_of_false nofun fun h => h.2.2.1 hall
      · have hnot : ¬ Blank rule.toList := fun h =>
          hblank (List.all_eq_true.mpr fun c hc => by simp [h c hc])
        rw [if_neg hlength, if_neg (by simpa using hchars), if_neg hblank,
          Outcome.mapError_eq_ok_iff]
        exact ⟨fun h => ⟨by omega, hchars, hnot, h⟩, fun h => h.2.2.2⟩
    · rw [if_neg hlength, if_pos hchars]
      exact iff_of_false nofun fun h => hchars h.2.1

/-- A rule is refused for a check that it does not pass, or for a fault that its run finds. -/
theorem compile_error_cases {rule : String} {error : Error} (h : compile rule = .error error) :
    (∃ length, error = .tooLong length) ∨ (∃ chars, error = .invalidChars rule chars) ∨
      error = .emptyRule ∨
      ∃ fault, error = .fault rule fault ∧ (Reduction.start rule.toList).run = .error fault := by
  unfold compile at h
  split_ifs at h
  · exact .inl ⟨_, (Except.error.inj h).symm⟩
  · exact .inr (.inl ⟨_, (Except.error.inj h).symm⟩)
  · exact .inr (.inr (.inl (Except.error.inj h).symm))
  · cases hrun : (Reduction.start rule.toList).run with
    | ok shape =>
      rw [hrun] at h
      cases h
    | error fault =>
      rw [hrun] at h
      exact .inr (.inr (.inr ⟨fault, (Except.error.inj h).symm, rfl⟩))

/-- A fault is found by the run of a rule that has passed its checks. -/
theorem checked_of_fault {rule : String} {fault : Fault}
    (h : compile rule = .error (.fault rule fault)) :
    Checked rule ∧ (Reduction.start rule.toList).run = .error fault := by
  have hchecked : Checked rule := by
    unfold compile at h
    split_ifs at h with hlength hchars hblank
    · cases h
    · cases h
    · cases h
    · refine ⟨Nat.not_lt.mp hlength, not_not.mp hchars, fun hall => hblank ?_⟩
      exact List.all_eq_true.mpr fun c hc => beq_iff_eq.mpr (hall c hc)
  refine ⟨hchecked, ?_⟩
  rw [hchecked.compile_eq] at h
  cases hrun : (Reduction.start rule.toList).run with
  | ok shape =>
    rw [hrun] at h
    cases h
  | error found =>
    rw [hrun] at h
    cases h
    rfl

/-- The rules that compile are those of the grammar that are short and not nested too deeply, and
a rule compiles to the shape of its tree. -/
theorem compile_eq_ok_iff {rule : String} {shape : Shape} :
    compile rule = .ok shape ↔
      rule.utf8ByteSize ≤ 8192 ∧
        ∃ tree, Spells tree rule.toList ∧ tree.denote? = some shape ∧ shape.depth ≤ 32 := by
  rw [compile_eq_ok_iff_run]
  constructor
  · rintro ⟨hlength, -, hblank, hrun⟩
    exact ⟨hlength, exists_spells_of_run hblank hrun⟩
  · rintro ⟨hlength, tree, hspells, htree, hdepth⟩
    exact ⟨hlength, hspells.isRuleChar, hspells.not_blank, run_of_spells hspells htree hdepth⟩

theorem exists_tree_of_compile {rule : String} {shape : Shape} (h : compile rule = .ok shape) :
    rule.utf8ByteSize ≤ maxLength ∧
      ∃ tree, Spells tree rule.toList ∧ tree.denote? = some shape ∧ shape.depth ≤ maxDepth := by
  obtain ⟨hlength, -, hblank, hrun⟩ := compile_eq_ok_iff_run.mp h
  exact ⟨hlength, exists_spells_of_run hblank hrun⟩

theorem compile_of_spells {rule : String} {tree : Tree} {shape : Shape}
    (hlength : rule.utf8ByteSize ≤ maxLength) (hspells : Spells tree rule.toList)
    (htree : tree.denote? = some shape) (hdepth : shape.depth ≤ maxDepth) :
    compile rule = .ok shape :=
  compile_eq_ok_iff_run.mpr
    ⟨hlength, hspells.isRuleChar, hspells.not_blank, run_of_spells hspells htree hdepth⟩

/-- A compiled shape is sorted. -/
theorem sorted_of_compile {rule : String} {shape : Shape} (h : compile rule = .ok shape) :
    shape.Sorted := by
  obtain ⟨-, tree, -, htree, -⟩ := exists_tree_of_compile h
  exact tree.sorted_denote? htree

end Allowlist.Rule
