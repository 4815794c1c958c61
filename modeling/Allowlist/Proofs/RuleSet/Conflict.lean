import Allowlist.Proofs.Rule.Inside
import Allowlist.Proofs.RuleSet.Pairs

/-!
# Proofs.RuleSet.Conflict — which path a conflict names

Two rules that do not merge are followed from the root, so the path of their conflict is the whole
path of a name that both declare (`conflictBetween_of_mergeRoots`).  Entries that are repeated in
one rule conflict when the body is built in which they stand, and the path begins there
(`Rule.exists_apart_of_compile`): it is the whole path for a body at the top, and without the path
of the group otherwise (`conflict_path_cases`, `conflict_path_inside_shortened`).  Of several
conflicts any may be met first, so all this is proved for every order of the members.
-/

namespace Allowlist

open Allowlist.Rule (Tree Spells ApartBehind AtTop Inside)
open Allowlist.Shape (MergeAll)

namespace RuleSet

/-- Two rules, not the same, declare two kinds where the names lead to from the top. -/
def ConflictBetween (rules : List String) (names : List String) : Prop :=
  ∃ r ∈ rules, ∃ s ∈ rules, r ≠ s ∧ ∃ t u k l, Spells t r.toList ∧ Spells u s.toList ∧ k ≠ l ∧
    t.Declares names k ∧ u.Declares names l

/-- Entries of one body of the rule declare two kinds where the names lead to from that body, and
in a rule that derives without array elements, where they lead to below the path of the body. -/
def ConflictWithin (rule : String) (names : List String) : Prop :=
  ∃ front, ApartBehind rule.toList front names ∧ (AtTop front ∨ Inside front) ∧
    ∀ tree, Spells tree rule.toList → tree.Plain →
      ∃ base, tree.Apart (base ++ names) ∧ (base = [] ↔ AtTop front)

section

variable [Shape.MemberOrder]

/-! ### Conflicts of two rules -/

/-- Roots that do not merge differ at the path, two of them. -/
theorem exists_differ_of_mergeRoots {roots : List Shape} {names : List String}
    (hroots : ∀ s ∈ roots, s.Sorted) (h : mergeRoots roots = .error (.conflict names)) :
    ∃ a ∈ roots, ∃ b ∈ roots, Shape.Differ names a b := by
  cases roots with
  | nil => cases h
  | cons first roots =>
    obtain ⟨front, next, back, merged, rfl, hfront, hfail⟩ := Outcome.exists_front_of_foldlM_error h
    have hmerge : Shape.merge [] merged next = .error names := by
      cases hmerge : Shape.merge [] merged next with
      | ok m =>
        rw [hmerge] at hfail
        cases hfail
      | error path =>
        rw [hmerge] at hfail
        cases hfail
        rfl
    have hnext : next ∈ first :: (front ++ next :: back) := by simp
    obtain ⟨_, rfl, k, l, hne, hk, hl⟩ :=
      Shape.exists_differ_of_merge_error (hroots next hnext) hmerge
    have hall : MergeAll first front merged := foldlM_merge_eq_ok_iff.mp hfront
    have hsub : first :: front ⊆ first :: (front ++ next :: back) :=
      List.cons_subset_cons _ (List.subset_append_left _ _)
    obtain ⟨a, ha, hk⟩ := (hall.kindAt?_eq_some_iff fun s hs =>
      hroots s (hsub (List.mem_cons_of_mem _ hs))).mp hk
    exact ⟨a, hsub ha, next, hnext, k, l, hne, hk, hl⟩

theorem conflictBetween_of_mergeRoots {rules : List String} {roots : List Shape}
    {names : List String} (hroots : (Distinct.ofList rules).mapM Rule.compile = .ok roots)
    (h : mergeRoots roots = .error (.conflict names)) : ConflictBetween rules names := by
  obtain ⟨a, ha, b, hb, k, l, hne, hk, hl⟩ :=
    exists_differ_of_mergeRoots (sorted_of_mem_roots hroots) h
  obtain ⟨r, hr, hcompile⟩ := (mem_roots_iff hroots).mp ha
  obtain ⟨s, hs, hcompile'⟩ := (mem_roots_iff hroots).mp hb
  obtain ⟨-, t, hspells, ht, -⟩ := Rule.exists_tree_of_compile hcompile
  obtain ⟨-, u, hspells', hu, -⟩ := Rule.exists_tree_of_compile hcompile'
  refine ⟨r, hr, s, hs, ?_, t, u, k, l, hspells, hspells', hne, Tree.declares_of_kindAt? ht hk,
    Tree.declares_of_kindAt? hu hl⟩
  rintro rfl
  cases hcompile.symm.trans hcompile'
  exact hne (Option.some.inj (hk.symm.trans hl))

/-! ### Conflicts inside a rule -/

theorem conflictWithin_of_compile {rule : String} {error : Rule.Error} {names : List String}
    (h : Rule.compile rule = .error error) (hnames : error.conflictPath? = some names) :
    error = .fault rule (.conflict names) ∧ ConflictWithin rule names := by
  obtain ⟨rfl, front, hapart, hfront⟩ := Rule.exists_apart_of_compile h hnames
  exact ⟨rfl, front, hapart, hfront, fun tree hspells hplain =>
    hspells.exists_apart hplain hapart hfront⟩

/-! ### Both -/

/-- A conflict is one of two rules, at its whole path, or one of two entries in one body of a rule,
at its path from that body; the message names this path.  This is so of whichever conflict is met
first, in every order in which members may be walked. -/
theorem conflict_path_cases {rules : List String} {error : Rule.Error} {names : List String}
    (h : compile rules = .error error) (hnames : error.conflictPath? = some names) :
    error.message = Rule.Error.conflictMessage names ∧
      (error = .conflict names ∧ ConflictBetween rules names ∨
        ∃ rule ∈ rules, error = .fault rule (.conflict names) ∧ ConflictWithin rule names) := by
  constructor
  · rcases Rule.Error.conflictPath?_eq_some_iff.mp hnames with rfl | ⟨rule, rfl⟩ <;> rfl
  · cases hroots : (Distinct.ofList rules).mapM Rule.compile with
    | ok roots =>
      rw [compile_eq_map_mergeRoots hroots, Outcome.map_eq_error_iff] at h
      rcases mergeRoots_error_cases h with ⟨-, rfl⟩ | ⟨path, rfl⟩
      · cases hnames
      · cases hnames
        exact .inl ⟨rfl, conflictBetween_of_mergeRoots hroots h⟩
    | error error' =>
      obtain ⟨rule, hrule, hfail⟩ := Outcome.exists_mapM_error hroots
      rw [compile, hroots] at h
      cases h
      exact .inr ⟨rule, Distinct.mem_ofList.mp hrule, conflictWithin_of_compile hfail hnames⟩

end

/-- Two rules with different shapes for a member of an object: the path leads through the object.
And two rules that conflict under two names: each of the names is reported in some order. -/
theorem conflict_path_cases_between :
    (compile ["a:{b}", "a:{b:[]}"] = .error (.conflict ["a", "b"]) ∧
        ConflictBetween ["a:{b}", "a:{b:[]}"] ["a", "b"]) ∧
      (compile ["a,b", "a:{},b:{}"] = .error (.conflict ["a"]) ∧
        ConflictBetween ["a,b", "a:{},b:{}"] ["a"]) ∧
      @compile (.toward ["b"]) ["a,b", "a:{},b:{}"] = .error (.conflict ["b"]) ∧
        ConflictBetween ["a,b", "a:{},b:{}"] ["b"] := by
  have hbetween : ∀ (order : Shape.MemberOrder) (rules : List String) (names : List String),
      @compile order rules = .error (.conflict names) → ConflictBetween rules names := by
    intro order rules names hcompile
    obtain ⟨-, ⟨-, hbetween⟩ | ⟨rule, -, herror, -⟩⟩ :=
      @conflict_path_cases order _ _ _ hcompile rfl
    · exact hbetween
    · cases herror
  have hinside : compile ["a:{b}", "a:{b:[]}"] = .error (.conflict ["a", "b"]) := by
    decide +kernel
  have hlisted : compile ["a,b", "a:{},b:{}"] = .error (.conflict ["a"]) := by decide +kernel
  have htoward : @compile (.toward ["b"]) ["a,b", "a:{},b:{}"] = .error (.conflict ["b"]) := by
    decide +kernel
  exact ⟨⟨hinside, hbetween _ _ _ hinside⟩, ⟨hlisted, hbetween _ _ _ hlisted⟩, htoward,
    hbetween _ _ _ htoward⟩

/-- An entry is repeated inside a group: the error names `a`, where the rule declares nothing, and
not `x[a]`, where it declares two kinds. -/
theorem conflict_path_inside_shortened :
    compile ["x:{a,a:{}}"] = .error (.fault "x:{a,a:{}}" (.conflict ["a"])) ∧
      ∃ tree, (∀ t, Spells t "x:{a,a:{}}".toList ↔ t = tree) ∧ tree.Plain ∧
        (∀ k, ¬ tree.Declares ["a"] k) ∧ tree.Apart ["x", "a"] := by
  have hempty : Rule.GroupText (.group .object []) ['\x7b', '\x7d'] :=
    @Rule.GroupText.group .object [] [] (.blank .nil)
  have ha : Rule.KeyText "a" ['a'] := .single (by decide)
  have hx : Rule.KeyText "x" ['x'] := .single (by decide)
  have hspells : Spells (.group .object
      [(some "x", .group .object [(some "a", .key), (some "a", .group .object [])])])
      "x:{a,a:{}}".toList :=
    .entries (.one (.keyed .nil hx .nil .nil (.group (.entries (.cons (.key .nil ha .nil)
      (.one (.keyed .nil ha .nil .nil hempty .nil))))) .nil))
  have hplain : Tree.Plain (.group .object [(some "a", .key), (some "a", .group .object [])]) :=
    .object (List.forall_mem_cons.mpr ⟨.key, List.forall_mem_singleton.mpr (.object nofun)⟩)
  refine ⟨by decide +kernel, _, fun t => ⟨fun h => h.unique hspells, fun h => h ▸ hspells⟩,
    .object (List.forall_mem_singleton.mpr hplain), fun k hk => ?_, .key, .object, nofun, ?_, ?_⟩
  · cases hk with
    | member hmem _ => simp at hmem
  · exact .member (List.mem_singleton_self _) (.member List.mem_cons_self .key)
  · exact .member (List.mem_singleton_self _)
      (.member (List.mem_cons_of_mem _ (List.mem_singleton_self _)) .object)

end RuleSet

end Allowlist
