import Allowlist.Fixture.Filter
import Allowlist.Proofs.Params.Unrooted

/-!
# Proofs.Fixture — what a filter fixture checks

A case of a filter fixture compares sorted lines.  Sorted lines are equal when the lines are, up to
their order (`sortLines_eq_iff`), and keys hold no equals sign, so that lines say which values
stand under which key.  So a fixture passes exactly when each of its cases says what the filter
does, but for the order of the values of a key (`check_eq_ok_iff`).
-/

namespace Allowlist.Fixture

open scoped List

/-- The filter does what the case says: it keeps what the expected lines spell, values of one key
in any order, or it fails for a missing root, the one error that a filter has, and the case names
it. -/
def FilterCase.Describes (c : FilterCase) (params : Params) : Prop :=
  (c.error = none ∧ ∃ kept, params.filter (Pairs.form c.input) = .ok kept ∧
      (∀ line ∈ c.expect, '=' ∈ line.toList) ∧ kept.Alike (Pairs.form c.expect)) ∨
    (c.error = some "missing_required_key" ∧ ∃ root, params.require = some root ∧
      params.filter (Pairs.form c.input) = .error (.missingRequiredKey root))

namespace FilterFixture

/-! ### Sorted lines -/

theorem pairwise_sortLines (lines : List String) : (sortLines lines).Pairwise (· ≤ ·) := by
  have htrans : ∀ a b c : String, decide (a ≤ b) = true → decide (b ≤ c) = true →
      decide (a ≤ c) = true := by
    intro a b c hab hbc
    rw [decide_eq_true_eq] at hab hbc ⊢
    exact Std.le_trans hab hbc
  have htotal : ∀ a b : String, (decide (a ≤ b) || decide (b ≤ a)) = true := by
    intro a b
    rw [Bool.or_eq_true, decide_eq_true_eq, decide_eq_true_eq]
    exact Std.le_total
  exact (List.pairwise_mergeSort htrans htotal lines).imp fun h => of_decide_eq_true h

/-- Sorting forgets the order of lines and nothing else. -/
theorem sortLines_eq_iff {lines others : List String} :
    sortLines lines = sortLines others ↔ lines ~ others := by
  have hperm : sortLines lines ~ lines := List.mergeSort_perm _ _
  have hperm' : sortLines others ~ others := List.mergeSort_perm _ _
  constructor
  · intro h
    exact hperm.symm.trans (h ▸ hperm')
  · intro h
    refine (hperm.trans (h.trans hperm'.symm)).eq_of_pairwise (fun a b _ _ hab hba => ?_)
      (pairwise_sortLines lines) (pairwise_sortLines others)
    exact Std.le_antisymm hab hba

/-- What a filter keeps of a form can be read back from its lines. -/
theorem grouped_of_filter_form {params : Params} {input : List String} {kept : Values}
    (h : params.filter (Pairs.form input) = .ok kept) : kept.Grouped ∧ kept.Spellable :=
  ⟨Params.grouped_filter (Pairs.grouped_form input) h,
    Params.spellable_filter (Values.spellable_form input) h⟩

/-- Sorted lines tell apart all values that differ by more than the order of values of a key. -/
theorem sortLines_lines_eq_iff {params params' : Params} {input input' : List String}
    {kept kept' : Values} (h : params.filter (Pairs.form input) = .ok kept)
    (h' : params'.filter (Pairs.form input') = .ok kept') :
    sortLines kept.lines = sortLines kept'.lines ↔ kept.Alike kept' := by
  obtain ⟨hgrouped, hspellable⟩ := grouped_of_filter_form h
  obtain ⟨hgrouped', hspellable'⟩ := grouped_of_filter_form h'
  rw [sortLines_eq_iff, Values.lines_perm_iff_alike hspellable hgrouped,
    Values.form_lines hspellable' hgrouped']
  exact and_iff_right fun _ => Values.equals_mem_of_mem_lines

/-! ### Cases -/

/-- A case passes exactly when it describes what the filter does. -/
theorem checkCase_eq_ok_iff {name : String} {params : Params} {c : FilterCase} :
    checkCase name params c = .ok () ↔ c.Describes params := by
  unfold checkCase FilterCase.Describes
  cases hfilter : params.filter (Pairs.form c.input) with
  | ok kept =>
    cases herror : c.error with
    | none =>
      obtain ⟨hgrouped, hspellable⟩ := grouped_of_filter_form hfilter
      have hlines : sortLines kept.lines = sortLines c.expect ↔
          (∀ line ∈ c.expect, '=' ∈ line.toList) ∧ kept.Alike (Pairs.form c.expect) := by
        rw [sortLines_eq_iff, Values.lines_perm_iff_alike hspellable hgrouped]
      dsimp only
      split_ifs with heq
      · simpa using hlines.mp heq
      · simpa using mt hlines.mpr heq
    | some kind => simp
  | error e =>
    obtain ⟨root, hroot, -, rfl⟩ := Params.filter_eq_error_iff.mp hfilter
    have hkind : (Params.Error.missingRequiredKey root).kind = "missing_required_key" := rfl
    cases herror : c.error with
    | none => simp
    | some kind =>
      dsimp only
      rw [hkind]
      split_ifs with hnamed
      · simp [← hnamed, hroot]
      · simpa using fun h => absurd h.symm hnamed

/-- A fixture passes exactly when its filter can be built and each case describes what the filter
does: the expected lines are pairs that spell the values that are kept, but for the order of the
values of a key, or the required root is missing and the case names this kind of error.  For sorted
lines are equal exactly when the values are alike, whatever two filters they come from. -/
theorem check_eq_ok_iff (fixture : FilterFixture) :
    (fixture.check = .ok () ↔
      ∃ params, fixture.params = .ok params ∧ ∀ c ∈ fixture.cases, c.Describes params) ∧
    ∀ (params params' : Params) (input input' : List String) (kept kept' : Values),
      params.filter (Pairs.form input) = .ok kept →
      params'.filter (Pairs.form input') = .ok kept' →
      (sortLines kept.lines = sortLines kept'.lines ↔ kept.Alike kept') := by
  refine ⟨?_, fun _ _ _ _ _ _ h h' => sortLines_lines_eq_iff h h'⟩
  unfold check
  cases fixture.params with
  | error e => simp
  | ok params =>
    dsimp only
    rw [Outcome.forM_eq_ok_iff]
    simp only [checkCase_eq_ok_iff, Except.ok.injEq, exists_eq_left']

/-- A fixture that lists the values of one key in another order and names the error of an input
without the root; the same input when another error is named; and two values that stand under one
key and are told apart. -/
theorem check_eq_ok_iff_reordered :
    let reordered : FilterCase :=
      ⟨"values", ["r[a]=1", "r[a]=x=y", "r[b]=2"], ["a=x=y", "a=1"], none⟩
    let rootless : FilterCase := ⟨"no root", ["a=1"], [], some "missing_required_key"⟩
    let misnamed : FilterCase := ⟨"no root", ["a=1"], [], some "empty_required_key"⟩
    let params : Params := ⟨some "r", some ⟨.object [("a", .key)], ["a"]⟩⟩
    FilterFixture.params ⟨"order", "", some "r", ["a"], []⟩ = .ok params ∧
      check ⟨"order", "", some "r", ["a"], [reordered, rootless]⟩ = .ok () ∧
      reordered.Describes params ∧ rootless.Describes params ∧
      check ⟨"name", "", some "r", ["a"], [misnamed]⟩ ≠ .ok () ∧ ¬ misnamed.Describes params ∧
      Params.filter ⟨none, params.rules⟩ (Pairs.form ["a=1", "b=2"]) = .ok ⟨[("a", ["1"])]⟩ ∧
      Params.filter ⟨some "r", none⟩ (Pairs.form ["r[a]=2"]) = .ok ⟨[("a", ["2"])]⟩ ∧
      ¬ sortLines (Values.mk [("a", ["1"])]).lines =
        sortLines (Values.mk [("a", ["2"])]).lines := by
  intro reordered rootless misnamed params
  obtain ⟨hcheck, hlines⟩ :=
    check_eq_ok_iff ⟨"order", "", some "r", ["a"], [reordered, rootless]⟩
  have hparams : Params.ofConfig ⟨some "r", ["a"]⟩ = .ok params := by decide +kernel
  have hfilter : params.filter (Pairs.form reordered.input) = .ok ⟨[("a", ["1", "x=y"])]⟩ := by
    decide +kernel
  have hreordered : reordered.Describes params := by
    have hgrouped := (grouped_of_filter_form hfilter).1
    have halike := (hgrouped.toList_perm_iff (Pairs.grouped_form reordered.expect)).mp
      (by decide +kernel)
    exact .inl ⟨rfl, _, hfilter, by decide, halike⟩
  have hrootless : rootless.Describes params := .inr ⟨rfl, "r", rfl, by decide +kernel⟩
  have hmisnamed : ¬ misnamed.Describes params := by
    rintro (⟨h, -⟩ | ⟨h, -⟩)
    · cases h
    · exact absurd h (by decide)
  have hleft : Params.filter ⟨none, params.rules⟩ (Pairs.form ["a=1", "b=2"]) =
      .ok ⟨[("a", ["1"])]⟩ := by
    decide +kernel
  have hright : Params.filter ⟨some "r", none⟩ (Pairs.form ["r[a]=2"]) = .ok ⟨[("a", ["2"])]⟩ := by
    decide +kernel
  refine ⟨hparams, hcheck.mpr ⟨params, hparams, ?_⟩, hreordered, hrootless, fun h => ?_, hmisnamed,
    hleft, hright, fun h => ?_⟩
  · exact List.forall_mem_cons.mpr ⟨hreordered, List.forall_mem_singleton.mpr hrootless⟩
  · obtain ⟨params', hparams', hcases⟩ := (check_eq_ok_iff _).1.mp h
    cases hparams.symm.trans hparams'
    exact hmisnamed (hcases misnamed (List.mem_singleton_self _))
  · have halike := ((hlines _ _ _ _ _ _ hleft hright).mp h).2 "a"
    revert halike
    decide

end FilterFixture

end Allowlist.Fixture
