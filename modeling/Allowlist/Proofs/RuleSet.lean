import Allowlist.Proofs.Rule.Compile
import Allowlist.RuleSet

/-!
# Proofs.RuleSet — rules together permit what they permit one by one

The root of a rule set is a chain of merges, and such a chain is a union of what is accepted
(`Shape.MergeAll.accepts`).  So a rule set permits a path exactly when one of its rules does, and
rules that cannot be told apart are not needed twice.
-/

namespace Allowlist.RuleSet

theorem permits_eq_true_iff {set : RuleSet} {path : String} :
    set.permits path = true ↔
      ∃ hops, Path.tokenize? path = some hops ∧ set.root.accepts hops = true := by
  unfold permits
  cases Path.tokenize? path <;> simp

section

variable [Shape.MemberOrder]

/-! ### Merged roots -/

/-- Roots are merged one after the other. -/
theorem foldlM_merge_eq_ok_iff {roots : List Shape} {first root : Shape} :
    roots.foldlM (fun merged root =>
      (Shape.merge [] merged root).mapError Rule.Error.conflict) first = .ok root ↔
        Shape.MergeAll first roots root := by
  induction roots generalizing first with
  | nil =>
    constructor
    · intro h
      cases h
      exact .nil _
    · intro h
      cases h
      rfl
  | cons next roots ih =>
    rw [Outcome.foldlM_cons_eq_ok_iff]
    constructor
    · rintro ⟨merged, hmerge, hrest⟩
      exact .cons (Outcome.mapError_eq_ok_iff.mp hmerge) (ih.mp hrest)
    · intro h
      cases h with
      | cons hmerge hrest => exact ⟨_, Outcome.mapError_eq_ok_iff.mpr hmerge, ih.mpr hrest⟩

theorem accepts_mergeRoots {roots : List Shape} {root : Shape} (hroots : ∀ s ∈ roots, s.Sorted)
    (h : mergeRoots roots = .ok root) :
    root.Sorted ∧ ∀ hops, root.accepts hops = roots.any (·.accepts hops) := by
  cases roots with
  | nil => cases h
  | cons first roots =>
    obtain ⟨hfirst, hrest⟩ := List.forall_mem_cons.mp hroots
    have hall := foldlM_merge_eq_ok_iff.mp h
    exact ⟨hall.sorted hfirst hrest, hall.accepts hrest⟩

/-! ### Compiled rule sets -/

theorem compile_cases {rules : List String} {set : RuleSet} (h : compile rules = .ok set) :
    ∃ roots, (Distinct.ofList rules).mapM Rule.compile = .ok roots ∧
      mergeRoots roots = .ok set.root ∧ set.rules = Distinct.ofList rules := by
  unfold compile at h
  obtain ⟨roots, hroots, h⟩ := Outcome.bind_eq_ok_iff.mp h
  obtain ⟨root, hroot, h⟩ := Outcome.bind_eq_ok_iff.mp h
  cases h
  exact ⟨roots, hroots, hroot, rfl⟩

/-- The roots are the shapes of the rules, and sorted. -/
theorem mem_roots_iff {rules : List String} {roots : List Shape}
    (h : (Distinct.ofList rules).mapM Rule.compile = .ok roots) {s : Shape} :
    s ∈ roots ↔ ∃ rule ∈ rules, Rule.compile rule = .ok s := by
  rw [Outcome.mem_mapM_iff h]
  simp only [Distinct.mem_ofList]

theorem sorted_of_mem_roots {rules : List String} {roots : List Shape}
    (h : (Distinct.ofList rules).mapM Rule.compile = .ok roots) : ∀ s ∈ roots, s.Sorted := by
  intro s hs
  obtain ⟨rule, -, hrule⟩ := (mem_roots_iff h).mp hs
  exact Rule.sorted_of_compile hrule

theorem compile_singleton {rule : String} {root : Shape} (h : Rule.compile rule = .ok root) :
    compile [rule] = .ok ⟨root, [rule]⟩ := by
  have hroots : (Distinct.ofList [rule]).mapM Rule.compile = .ok [root] :=
    Outcome.mapM_eq_ok_iff.mpr (.cons h .nil)
  exact Outcome.bind_eq_ok_iff.mpr ⟨[root], hroots, rfl⟩

/-- The root of a rule set is sorted and accepts what the shape of one of its rules accepts. -/
theorem root_spec {rules : List String} {set : RuleSet} (h : compile rules = .ok set) :
    set.root.Sorted ∧ ∀ hops, set.root.accepts hops = true ↔
      ∃ rule ∈ rules, ∃ shape, Rule.compile rule = .ok shape ∧ shape.accepts hops = true := by
  obtain ⟨roots, hroots, hmerge, -⟩ := compile_cases h
  obtain ⟨hroot, haccepts⟩ := accepts_mergeRoots (sorted_of_mem_roots hroots) hmerge
  refine ⟨hroot, fun hops => ?_⟩
  rw [haccepts, List.any_eq_true]
  constructor
  · rintro ⟨s, hs, hhops⟩
    obtain ⟨rule, hmem, hrule⟩ := (mem_roots_iff hroots).mp hs
    exact ⟨rule, hmem, s, hrule, hhops⟩
  · rintro ⟨rule, hmem, s, hrule, hhops⟩
    exact ⟨s, (mem_roots_iff hroots).mpr ⟨rule, hmem, hrule⟩, hhops⟩

/-- Merging is the union of what is permitted: a rule set permits the paths that one of its rules
permits by itself, and a merged shape accepts the hops that one of the two shapes accepts.  The
members of a shape are a map, which is what `Sorted` says of their list. -/
theorem merge_is_union :
    (∀ (rules : List String) (set : RuleSet), compile rules = .ok set → ∀ path : String,
      set.permits path = true ↔
        ∃ rule ∈ rules, ∃ one, compile [rule] = .ok one ∧ one.permits path = true) ∧
      ∀ (path : List String) (a b c : Shape), b.Sorted → Shape.merge path a b = .ok c →
        ∀ hops : List Hop, c.accepts hops = (a.accepts hops || b.accepts hops) := by
  refine ⟨fun rules set h path => ?_, fun path a b c hb h => Shape.accepts_merge hb h⟩
  obtain ⟨-, haccepts⟩ := root_spec h
  rw [permits_eq_true_iff]
  constructor
  · rintro ⟨hops, htokens, hhops⟩
    obtain ⟨rule, hmem, shape, hrule, hshape⟩ := (haccepts hops).mp hhops
    exact ⟨rule, hmem, ⟨shape, [rule]⟩, compile_singleton hrule,
      permits_eq_true_iff.mpr ⟨hops, htokens, hshape⟩⟩
  · rintro ⟨rule, hmem, one, hone, hpermits⟩
    obtain ⟨hops, htokens, hhops⟩ := permits_eq_true_iff.mp hpermits
    obtain ⟨rule', hmem', shape, hrule, hshape⟩ := ((root_spec hone).2 hops).mp hhops
    rw [List.mem_singleton.mp hmem'] at hrule
    exact ⟨hops, htokens, (haccepts hops).mpr ⟨rule, hmem, shape, hrule, hshape⟩⟩

end

/-- Two rules that declare the same object, and the path that only the second permits. -/
theorem merge_is_union_shared_object :
    (compile ["a:{x}", "a:{y}"] =
        .ok ⟨.object [("a", .object [("x", .key), ("y", .key)])], ["a:{x}", "a:{y}"]⟩ ∧
      ∃ rule ∈ ["a:{x}", "a:{y}"], ∃ one, compile [rule] = .ok one ∧ one.permits "a[y]" = true) ∧
      ∀ hops : List Hop, (Shape.object [("x", .key), ("y", .array [])]).accepts hops =
        ((Shape.object [("x", .key)]).accepts hops ||
          (Shape.object [("y", .array [])]).accepts hops) := by
  have hcompile : compile ["a:{x}", "a:{y}"] =
      .ok ⟨.object [("a", .object [("x", .key), ("y", .key)])], ["a:{x}", "a:{y}"]⟩ := by
    decide +kernel
  have hmerge : Shape.merge [] (.object [("x", .key)]) (.object [("y", .array [])]) =
      .ok (.object [("x", .key), ("y", .array [])]) := by
    decide +kernel
  refine ⟨⟨hcompile, ?_⟩, ?_⟩
  · exact (merge_is_union.1 _ _ hcompile "a[y]").mp (by decide +kernel)
  · exact merge_is_union.2 [] _ _ _ (by simp [Keyed.Sorted]) hmerge

end Allowlist.RuleSet
