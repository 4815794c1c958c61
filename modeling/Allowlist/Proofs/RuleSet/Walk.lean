import Allowlist.Proofs.Rule.Walk
import Allowlist.Proofs.RuleSet.Pairs

/-!
# Proofs.RuleSet.Walk — what the order of members decides

Rules that compile together do so in every order of the members, and to one rule set; rules that are
refused are refused in every order, and for one error unless it is a conflict
(`compile_eq_or_conflicts`).  So all that the order decides is which of several conflicts is
reported.  Two rules are reported to conflict, in one order or another, at the paths at which their
shapes differ and at no others (`exists_order_iff_differ_pair`).
-/

namespace Allowlist.RuleSet

open Outcome (Avoids)
open Rule.Error (IsConflict)

variable {order order' : Shape.MemberOrder}

theorem mergeRoots_of_order {roots : List Shape} (hroots : ∀ s ∈ roots, s.Sorted)
    (h : Avoids IsConflict (@mergeRoots order roots)) :
    @mergeRoots order' roots = @mergeRoots order roots := by
  cases roots with
  | nil => rfl
  | cons first roots =>
    obtain ⟨hfirst, hrest⟩ := List.forall_mem_cons.mp hroots
    refine h.foldlM_congr Shape.Sorted hfirst (fun merged root hroot hmerged hstep => ?_)
      fun merged root next hroot hmerged hstep => ?_
    · cases hmerge : @Shape.merge order [] merged root with
      | ok next =>
        have hmerge' : @Shape.merge order' [] merged root = .ok next :=
          Shape.merge_of_merge hmerged (hrest root hroot) hmerge
        rw [hmerge']
      | error path =>
        rw [hmerge] at hstep
        exact absurd ⟨path, rfl⟩ (hstep _ rfl)
    · have hmerge := Outcome.mapError_eq_ok_iff.mp hstep
      exact @Shape.sorted_merge order _ _ _ _ hmerged (hrest root hroot) hmerge

/-- Rules come to one result in every order of the members, unless it is a conflict. -/
theorem compile_of_order {rules : List String} (h : Avoids IsConflict (@compile order rules)) :
    @compile order' rules = @compile order rules := by
  refine h.bind_congr (fun hroots => ?_) fun roots hroots hroot => ?_
  · exact hroots.mapM_congr fun rule _ => Rule.compile_of_order
  · refine hroot.bind_congr ?_ fun _ _ _ => rfl
    exact mergeRoots_of_order (@sorted_of_mem_roots order _ _ hroots)

/-- In two orders rules come to the same rule set or the same error, or to two conflicts. -/
theorem compile_eq_or_conflicts (order order' : Shape.MemberOrder) (rules : List String) :
    @compile order rules = @compile order' rules ∨
      ∃ e e', @compile order rules = .error e ∧ @compile order' rules = .error e' ∧
        IsConflict e ∧ IsConflict e' := by
  by_cases h : Avoids IsConflict (@compile order rules)
  · exact .inl (compile_of_order h).symm
  · by_cases h' : Avoids IsConflict (@compile order' rules)
    · exact .inl (compile_of_order h')
    · obtain ⟨e, he, hconflict⟩ := Avoids.exists_of_not h
      obtain ⟨e', he', hconflict'⟩ := Avoids.exists_of_not h'
      exact .inr ⟨e, e', he, he', hconflict, hconflict'⟩

/-- The paths at which two rules are reported to conflict, in one order or another, are those at
which their shapes differ. -/
theorem exists_order_iff_differ_pair {r s : String} {a b : Shape} {names : List String}
    (hne : r ≠ s) (hr : Rule.compile r = .ok a) (hs : Rule.compile s = .ok b) :
    (∃ order : Shape.MemberOrder, @compile order [r, s] = .error (.conflict names)) ↔
      Shape.Differ names a b := by
  have hdistinct : Distinct.ofList [r, s] = [r, s] :=
    Distinct.ofList_eq_self (List.nodup_cons.mpr ⟨by simpa using hne, List.nodup_singleton s⟩)
  have hcompile : ∀ order : Shape.MemberOrder,
      @compile order [r, s] = .error (.conflict names) ↔
        @Shape.merge order [] a b = .error names := by
    intro order
    have hroots : (Distinct.ofList [r, s]).mapM (@Rule.compile order) = .ok [a, b] := by
      rw [hdistinct, Outcome.mapM_eq_ok_iff]
      exact .cons ((Rule.compile_of_order (hr ▸ .ok a)).trans hr)
        (.cons ((Rule.compile_of_order (hs ▸ .ok b)).trans hs) .nil)
    rw [@compile_eq_map_mergeRoots order _ _ hroots, Outcome.map_eq_error_iff]
    cases hmerge : @Shape.merge order [] a b <;>
      simp [mergeRoots, hmerge, Except.mapError, bind, Except.bind, pure, Except.pure]
  simp only [hcompile]
  exact Shape.exists_order_iff_differ (Rule.sorted_of_compile hs)

end Allowlist.RuleSet
