import Allowlist.Proofs.RuleSet
import Allowlist.Proofs.Shape.Agree

/-!
# Proofs.RuleSet.Pairs — conflicts are conflicts of two rules

The roots of rules are merged one after the other, so each is compared with the merge of all before
it.  A merge agrees with a shape exactly when its parts do, and therefore the rules compile together
exactly when their roots agree in pairs (`exists_compile_iff`): no rule hides a conflict of two
others, and there is none that no two rules have (`compile_ok_iff_pairs`).
-/

namespace Allowlist.RuleSet

open Allowlist.Shape (exists_mergeAll_iff)

section

variable [Shape.MemberOrder]

/-! ### Merged roots -/

/-- Roots merge exactly when there are some and any two agree. -/
theorem exists_mergeRoots_iff {roots : List Shape} (hroots : ∀ s ∈ roots, s.Sorted) :
    (∃ root, mergeRoots roots = .ok root) ↔
      roots ≠ [] ∧ ∀ a ∈ roots, ∀ b ∈ roots, a.Agree b := by
  cases roots with
  | nil => exact iff_of_false (fun ⟨root, h⟩ => nomatch h) fun h => h.1 rfl
  | cons first roots =>
    have hrest := (List.forall_mem_cons.mp hroots).2
    simp only [mergeRoots, foldlM_merge_eq_ok_iff, exists_mergeAll_iff hrest,
      Shape.pairwise_agree_iff]
    exact (and_iff_right (List.cons_ne_nil _ _)).symm

/-- Roots that do not merge are none, or in conflict. -/
theorem mergeRoots_error_cases {roots : List Shape} {error : Rule.Error}
    (h : mergeRoots roots = .error error) :
    roots = [] ∧ error = .noRules ∨ ∃ path, error = .conflict path := by
  cases roots with
  | nil => exact .inl ⟨rfl, (Except.error.inj h).symm⟩
  | cons first roots =>
    obtain ⟨merged, next, -, hfail⟩ := Outcome.exists_step_of_foldlM_error h
    cases hmerge : Shape.merge [] merged next with
    | error path =>
      rw [hmerge] at hfail
      exact .inr ⟨path, (Except.error.inj hfail).symm⟩
    | ok m =>
      rw [hmerge] at hfail
      cases hfail

/-! ### Rules compiled together -/

/-- Rules that compile one by one compile together to the merge of their roots. -/
theorem compile_eq_map_mergeRoots {rules : List String} {roots : List Shape}
    (hroots : (Distinct.ofList rules).mapM Rule.compile = .ok roots) :
    compile rules = (mergeRoots roots).map fun root => ⟨root, Distinct.ofList rules⟩ := by
  cases hmerge : mergeRoots roots <;>
    simp [compile, hroots, hmerge, bind, Except.bind, pure, Except.pure, Except.map]

/-- Rules compile together exactly when there are some, each compiles, and any two agree. -/
theorem exists_compile_iff {rules : List String} :
    (∃ set, compile rules = .ok set) ↔
      rules ≠ [] ∧ (∀ rule ∈ rules, ∃ s, Rule.compile rule = .ok s) ∧
        ∀ a ∈ rules, ∀ b ∈ rules, ∀ s t, Rule.compile a = .ok s → Rule.compile b = .ok t →
          s.Agree t := by
  have hrules : (∀ rule ∈ rules, ∃ s, Rule.compile rule = .ok s) ↔
      ∃ roots, (Distinct.ofList rules).mapM Rule.compile = .ok roots := by
    simp only [Outcome.exists_mapM_iff, Distinct.mem_ofList]
  by_cases hall : ∃ roots, (Distinct.ofList rules).mapM Rule.compile = .ok roots
  · obtain ⟨roots, hroots⟩ := hall
    have hmem := fun s => mem_roots_iff (s := s) hroots
    have heach : ∀ rule ∈ rules, ∃ s, Rule.compile rule = .ok s := hrules.mpr ⟨roots, hroots⟩
    have hmerge : (∃ set, compile rules = .ok set) ↔ ∃ root, mergeRoots roots = .ok root := by
      simp [compile_eq_map_mergeRoots hroots, Outcome.map_eq_ok_iff]
    rw [hmerge, exists_mergeRoots_iff (sorted_of_mem_roots hroots)]
    constructor
    · rintro ⟨hne, hagree⟩
      refine ⟨fun hnil => ?_, heach, fun a ha b hb s t hs ht => ?_⟩
      · obtain ⟨s, hs⟩ := List.exists_mem_of_ne_nil roots hne
        obtain ⟨rule, hrule, -⟩ := (hmem s).mp hs
        rw [hnil] at hrule
        cases hrule
      · exact hagree s ((hmem s).mpr ⟨a, ha, hs⟩) t ((hmem t).mpr ⟨b, hb, ht⟩)
    · rintro ⟨hne, -, hagree⟩
      refine ⟨fun hnil => ?_, fun s hs t ht => ?_⟩
      · obtain ⟨rule, hrule⟩ := List.exists_mem_of_ne_nil rules hne
        obtain ⟨s, hs⟩ := heach rule hrule
        have hroot := (hmem s).mpr ⟨rule, hrule, hs⟩
        rw [hnil] at hroot
        cases hroot
      · obtain ⟨a, ha, has⟩ := (hmem s).mp hs
        obtain ⟨b, hb, hbt⟩ := (hmem t).mp ht
        exact hagree a ha b hb s t has hbt
  · refine iff_of_false ?_ fun h => hall (hrules.mp h.2.1)
    rintro ⟨set, h⟩
    obtain ⟨roots, hroots, -⟩ := compile_cases h
    exact hall ⟨roots, hroots⟩

/-- Rules that compile one by one compile together exactly when any two of them do, and when they do
not, the error is a conflict. -/
theorem compile_ok_iff_pairs {rules : List String} (hne : rules ≠ [])
    (hall : ∀ rule ∈ rules, ∃ one, compile [rule] = .ok one) :
    ((∃ set, compile rules = .ok set) ↔
        ∀ a ∈ rules, ∀ b ∈ rules, ∃ set, compile [a, b] = .ok set) ∧
      ∀ error, compile rules = .error error → ∃ path, error = .conflict path := by
  have heach : ∀ rule ∈ rules, ∃ s, Rule.compile rule = .ok s := fun rule hrule =>
    (exists_compile_iff.mp (hall rule hrule)).2.1 rule (List.mem_singleton_self rule)
  constructor
  · rw [exists_compile_iff]
    constructor
    · rintro ⟨-, -, hagree⟩ a ha b hb
      have hpair : ∀ rule ∈ [a, b], rule ∈ rules := by simp [ha, hb]
      exact exists_compile_iff.mpr ⟨List.cons_ne_nil _ _,
        fun rule hrule => heach rule (hpair rule hrule),
        fun x hx y hy => hagree x (hpair x hx) y (hpair y hy)⟩
    · intro hpairs
      refine ⟨hne, heach, fun a ha b hb => ?_⟩
      exact (exists_compile_iff.mp (hpairs a ha b hb)).2.2 a (by simp) b (by simp)
  · intro error herror
    obtain ⟨roots, hroots⟩ : ∃ roots, (Distinct.ofList rules).mapM Rule.compile = .ok roots :=
      Outcome.exists_mapM_iff.mpr fun rule hrule => heach rule (Distinct.mem_ofList.mp hrule)
    rw [compile_eq_map_mergeRoots hroots, Outcome.map_eq_error_iff] at herror
    obtain ⟨rfl, -⟩ | hconflict := mergeRoots_error_cases herror
    · obtain ⟨rule, hrule⟩ := List.exists_mem_of_ne_nil rules hne
      obtain ⟨s, hs⟩ := heach rule hrule
      exact absurd ((mem_roots_iff hroots).mpr ⟨rule, hrule, hs⟩) List.not_mem_nil
    · exact hconflict

end

/-- Three rules whose conflict lies inside a member that the first two share: two of them do not
compile together, and the error names the path. -/
theorem compile_ok_iff_pairs_inside :
    (∀ rule ∈ ["a:{x}", "a:{y:[]}", "a:{y}"], ∃ one, compile [rule] = .ok one) ∧
      compile ["a:{x}", "a:{y:[]}", "a:{y}"] = .error (.conflict ["a", "y"]) ∧
      ¬ ∀ a ∈ ["a:{x}", "a:{y:[]}", "a:{y}"], ∀ b ∈ ["a:{x}", "a:{y:[]}", "a:{y}"],
        ∃ set, compile [a, b] = .ok set := by
  have hall : ∀ rule ∈ ["a:{x}", "a:{y:[]}", "a:{y}"], ∃ one, compile [rule] = .ok one := by
    have hx : compile ["a:{x}"] = .ok ⟨.object [("a", .object [("x", .key)])], ["a:{x}"]⟩ := by
      decide +kernel
    have hvalues : compile ["a:{y:[]}"] =
        .ok ⟨.object [("a", .object [("y", .array [])])], ["a:{y:[]}"]⟩ := by
      decide +kernel
    have hkey : compile ["a:{y}"] = .ok ⟨.object [("a", .object [("y", .key)])], ["a:{y}"]⟩ := by
      decide +kernel
    simp [hx, hvalues, hkey]
  have herror : compile ["a:{x}", "a:{y:[]}", "a:{y}"] = .error (.conflict ["a", "y"]) := by
    decide +kernel
  refine ⟨hall, herror, fun hpairs => ?_⟩
  obtain ⟨set, hset⟩ := (compile_ok_iff_pairs (List.cons_ne_nil _ _) hall).1.mpr hpairs
  cases herror.symm.trans hset

end Allowlist.RuleSet
