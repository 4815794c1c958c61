import Allowlist.Proofs.Rule.Unambiguous
import Allowlist.Proofs.RuleSet.Pairs
import Allowlist.Proofs.Shape.Algebra
import Mathlib.Tactic.Choose

/-!
# Proofs.RuleSet.Joined — several rules, or one rule with commas

Rules that list entries can be joined with commas, and the join lists the entries of all of them
(`Lists.join`).  Its shape is that of all entries merged into one object in turn, while the root of
the rules is the merge of the objects that each of them makes.  These are the same merges, grouped
in another way and without the rules that repeat another, so both roots are the merge of one list of
shapes (`compile_join_eq_ok_iff`, `exists_compile_root_iff`), and either exists when the other does
(`compile_join`).
-/

namespace Allowlist

namespace Rule

open Allowlist.Shape (MergeAll)

/-! ### Lists of entries -/

/-- The rule lists the entries of an object, with nothing around them. -/
def IsEntryList (rule : String) : Prop := ∃ entries, EntriesText .object entries rule.toList

/-- The text lists entries with these shapes. -/
def Lists (shapes : List (Option String × Shape)) (text : List Char) : Prop :=
  ∃ entries, EntriesText .object entries text ∧ Tree.denoteEntries? entries = some shapes

theorem Tree.denoteEntries?_append {entries more : List (Option String × Tree)}
    {shapes others : List (Option String × Shape)} (h : denoteEntries? entries = some shapes)
    (hmore : denoteEntries? more = some others) :
    denoteEntries? (entries ++ more) = some (shapes ++ others) := by
  induction entries generalizing shapes with
  | nil =>
    cases h
    exact hmore
  | cons e entries ih =>
    obtain ⟨shape, rest, hshape, hrest, rfl⟩ := denoteEntries?_cons_eq_some_iff.mp h
    exact denoteEntries?_cons_eq_some_iff.mpr ⟨shape, _, hshape, ih hrest, rfl⟩

theorem Lists.sorted {shapes : List (Option String × Shape)} {text : List Char}
    (h : Lists shapes text) : ∀ e ∈ shapes, e.2.Sorted := by
  obtain ⟨entries, -, hshapes⟩ := h
  exact Tree.sorted_denoteEntries? entries hshapes

theorem Lists.append {shapes more : List (Option String × Shape)} {text rest : List Char}
    (h : Lists shapes text) (hmore : Lists more rest) :
    Lists (shapes ++ more) (text ++ ',' :: ' ' :: rest) := by
  obtain ⟨entries, htext, hshapes⟩ := h
  obtain ⟨others, hrest, hothers⟩ := hmore
  exact ⟨entries ++ others, htext.append (hrest.blank_append Blank.single),
    Tree.denoteEntries?_append hshapes hothers⟩

/-- Texts joined with commas list the entries of all of them. -/
theorem Lists.join {parts : List (List (Option String × Shape))} {texts : List (List Char)}
    (h : List.Forall₂ Lists parts texts) (hne : parts ≠ []) :
    Lists parts.flatten ([',', ' '].intercalate texts) := by
  induction h with
  | nil => exact absurd rfl hne
  | @cons shapes text parts texts hfirst hrest ih =>
    cases hrest with
    | nil => simpa using hfirst
    | @cons shapes' text' parts texts hnext hmore =>
      rw [List.intercalate_cons_cons]
      simpa using hfirst.append (ih (List.cons_ne_nil _ _))

/-! ### What a list of entries compiles to -/

/-- A list of entries compiles to the merge of the objects with one entry each. -/
theorem Lists.compile_eq_ok_iff_mergeAll {rule : String} {shapes : List (Option String × Shape)}
    {s : Shape} (h : Lists shapes rule.toList) :
    compile rule = .ok s ↔
      rule.utf8ByteSize ≤ maxLength ∧
        ((∀ e ∈ shapes, e.1 ≠ none) ∧ MergeAll (.object []) (shapes.map elementOf) s) ∧
          s.depth ≤ maxDepth := by
  obtain ⟨entries, htext, hshapes⟩ := h
  rw [← groupShape?_object_eq_some_iff]
  constructor
  · intro hs
    obtain ⟨hlength, tree, hspells, htree, hdepth⟩ := exists_tree_of_compile hs
    rw [hspells.unique (.entries htext), Tree.denote?_group_eq_some_iff] at htree
    obtain ⟨shapes', hshapes', hgroup⟩ := htree
    cases hshapes.symm.trans hshapes'
    exact ⟨hlength, hgroup, hdepth⟩
  · rintro ⟨hlength, hgroup, hdepth⟩
    have htree := Tree.denote?_group_eq_some_iff.mpr ⟨shapes, hshapes, hgroup⟩
    exact compile_of_spells hlength (.entries htext) htree hdepth

/-- A list of entries compiles to what its entries merge to. -/
theorem IsEntryList.exists_lists {rule : String} {s : Shape} (h : IsEntryList rule)
    (hs : compile rule = .ok s) :
    ∃ shapes, Lists shapes rule.toList ∧ groupShape? .object shapes = some s := by
  obtain ⟨entries, htext⟩ := h
  obtain ⟨-, tree, hspells, htree, -⟩ := exists_tree_of_compile hs
  rw [hspells.unique (.entries htext), Tree.denote?_group_eq_some_iff] at htree
  obtain ⟨shapes, hshapes, hgroup⟩ := htree
  exact ⟨shapes, ⟨entries, htext, hshapes⟩, hgroup⟩

/-- A list of entries compiles to an object. -/
theorem IsEntryList.exists_object {rule : String} {s : Shape} (h : IsEntryList rule)
    (hs : compile rule = .ok s) : ∃ ms, s = .object ms := by
  obtain ⟨shapes, -, hgroup⟩ := h.exists_lists hs
  obtain ⟨ms, -, rfl⟩ := Option.map_eq_some_iff.mp hgroup
  exact ⟨ms, rfl⟩

theorem Blank.dropWhile_append {p text : List Char} (hp : Blank p) (h : text.head? ≠ some ' ') :
    (p ++ text).dropWhile (· == ' ') = text := by
  rw [List.dropWhile_append_of_pos fun c hc => by simp [hp c hc]]
  cases text with
  | nil => rfl
  | cons c text => exact List.dropWhile_cons_of_neg (by simpa using h)

/-- A rule that compiles lists entries unless a group opens at its first character that is no
blank. -/
theorem isEntryList_iff_of_compile {rule : String} {s : Shape} (h : compile rule = .ok s) :
    IsEntryList rule ↔
      ∀ kind : GroupKind, (rule.toList.dropWhile (· == ' ')).head? ≠ some kind.opener := by
  constructor
  · rintro ⟨entries, htext⟩ kind
    obtain ⟨p, c, rest, hp, hc, hrule⟩ := htext.start
    rw [hrule, hp.dropWhile_append (by simpa using hc.ne_blank), List.head?_cons]
    exact fun he => hc.ne_opener kind (Option.some.inj he)
  · intro hopener
    obtain ⟨-, tree, hspells, -, -⟩ := exists_tree_of_compile h
    unfold IsEntryList
    generalize rule.toList = text at hopener hspells
    cases hspells with
    | @group _ p u q hp hu hq =>
      obtain ⟨kind, v, rfl⟩ := hu.exists_cons
      have hfirst := hopener kind
      rw [List.append_assoc, hp.dropWhile_append (hu.head_append_ne_blank q)] at hfirst
      exact absurd rfl hfirst
    | entries htexts => exact ⟨_, htexts⟩

end Rule

namespace RuleSet

open Allowlist.Rule (IsEntryList Lists)
open Allowlist.Shape (MergeAll)

variable {rules : List String} {root : String → Shape} {s : Shape}

/-! ### One rule with commas -/

/-- Joined with commas, rules compile to the merge of what each of them compiles to. -/
theorem compile_join_eq_ok_iff (hne : rules ≠ [])
    (hroot : ∀ rule ∈ rules, Rule.compile rule = .ok (root rule))
    (hlist : ∀ rule ∈ rules, IsEntryList rule)
    (hlength : (", ".intercalate rules).utf8ByteSize ≤ Rule.maxLength) :
    Rule.compile (", ".intercalate rules) = .ok s ↔
      MergeAll (.object []) (rules.map root) s := by
  choose! parts hparts hgroup using fun rule hrule =>
    (hlist rule hrule).exists_lists (hroot rule hrule)
  have hone := fun rule hrule =>
    (hparts rule hrule).compile_eq_ok_iff_mergeAll.mp (hroot rule hrule)
  have hjoin : Lists (rules.map parts).flatten (", ".intercalate rules).toList := by
    rw [String.toList_intercalate]
    refine Lists.join ?_ (by simpa using hne)
    rw [List.forall₂_map_left_iff, List.forall₂_map_right_iff, List.forall₂_same]
    exact hparts
  have hentries : ∀ e ∈ (rules.map parts).flatten, ∃ rule ∈ rules, e ∈ parts rule := by
    simp
  have hmerge : MergeAll (.object []) ((rules.map parts).flatten.map Rule.elementOf) s ↔
      MergeAll (.object []) (rules.map root) s := by
    rw [List.map_flatten, List.map_map]
    refine MergeAll.flatten_iff (by simp) ?_ ?_
    · refine List.forall_mem_map.mpr fun rule hrule => ?_
      exact Rule.forall_sorted_elementOf (hparts rule hrule).sorted
    · rw [List.forall₂_map_left_iff, List.forall₂_map_right_iff, List.forall₂_same]
      exact fun rule hrule => (hone rule hrule).2.1.2
  rw [hjoin.compile_eq_ok_iff_mergeAll, hmerge]
  constructor
  · exact fun h => h.2.1.2
  · intro hall
    refine ⟨hlength, ⟨fun e he => ?_, hall⟩, ?_⟩
    · obtain ⟨rule, hrule, hmem⟩ := hentries e he
      exact (hone rule hrule).2.1.1 e hmem
    · -- the merge is no deeper than the deepest rule
      have hsorted' : ∀ s ∈ rules.map root, s.Sorted :=
        List.forall_mem_map.mpr fun rule hrule => Rule.sorted_of_compile (hroot rule hrule)
      rw [hall.depth_le_iff (by simp) hsorted', List.forall_mem_cons, List.forall_mem_map]
      exact ⟨by decide, fun rule hrule => (hone rule hrule).2.2⟩

theorem exists_compile_singleton_iff {rule : String} :
    (∃ one, compile [rule] = .ok one ∧ one.root = s) ↔ Rule.compile rule = .ok s := by
  constructor
  · rintro ⟨one, hone, rfl⟩
    obtain ⟨roots, hroots, hmerge, -⟩ := compile_cases hone
    rw [Distinct.ofList_eq_self (List.nodup_singleton rule), Outcome.mapM_eq_ok_iff] at hroots
    cases hroots with
    | cons hrule hnil =>
      cases hnil
      rw [hrule, ← hmerge]
      rfl
  · intro h
    exact ⟨_, compile_singleton h, rfl⟩

/-! ### Several rules -/

/-- Objects are merged into the first of them, or all into the one without members. -/
theorem mergeRoots_eq_ok_iff_of_objects {roots : List Shape} (hne : roots ≠ [])
    (hsorted : ∀ r ∈ roots, r.Sorted) (hobject : ∀ r ∈ roots, ∃ ms, r = .object ms) :
    mergeRoots roots = .ok s ↔ MergeAll (.object []) roots s := by
  cases roots with
  | nil => exact absurd rfl hne
  | cons first roots =>
    obtain ⟨ms, rfl⟩ := hobject _ List.mem_cons_self
    have hms := (Shape.sorted_object.mp (hsorted _ List.mem_cons_self)).1
    rw [mergeRoots, foldlM_merge_eq_ok_iff, MergeAll.cons_iff, Shape.merge_object_nil_left hms]
    simp

/-- Rules compile to the merge of what each compiles to, those that stand there again included. -/
theorem exists_compile_root_iff (hne : rules ≠ [])
    (hroot : ∀ rule ∈ rules, Rule.compile rule = .ok (root rule))
    (hobject : ∀ rule ∈ rules, ∃ ms, root rule = .object ms) :
    (∃ set, compile rules = .ok set ∧ set.root = s) ↔
      MergeAll (.object []) (rules.map root) s := by
  have hsorted : ∀ rule ∈ rules, (root rule).Sorted := fun rule hrule =>
    Rule.sorted_of_compile (hroot rule hrule)
  have hroots : (Distinct.ofList rules).mapM Rule.compile =
      .ok ((Distinct.ofList rules).map root) := by
    rw [Outcome.mapM_eq_ok_iff, List.forall₂_map_right_iff, List.forall₂_same]
    exact fun rule hrule => hroot rule (Distinct.mem_ofList.mp hrule)
  have hset : (∃ set, compile rules = .ok set ∧ set.root = s) ↔
      mergeRoots ((Distinct.ofList rules).map root) = .ok s := by
    simp [compile_eq_map_mergeRoots hroots, Outcome.map_eq_ok_iff]
  have hdistinct : ∀ rule ∈ Distinct.ofList rules, rule ∈ rules := fun rule hrule =>
    Distinct.mem_ofList.mp hrule
  rw [hset, ← MergeAll.map_ofList_iff (by simp) hsorted]
  refine mergeRoots_eq_ok_iff_of_objects ?_ ?_ ?_
  · simpa [Distinct.ofList] using hne
  · exact List.forall_mem_map.mpr fun rule hrule => hsorted rule (hdistinct rule hrule)
  · exact List.forall_mem_map.mpr fun rule hrule => hobject rule (hdistinct rule hrule)

/-- Rules that list entries compile together exactly when the one rule compiles in which commas
stand between them, and to the same root. -/
theorem compile_join (hne : rules ≠ [])
    (heach : ∀ rule ∈ rules, (∃ one, compile [rule] = .ok one) ∧ IsEntryList rule)
    (hlength : (", ".intercalate rules).utf8ByteSize ≤ 8192) :
    ((∃ set, compile rules = .ok set) ↔ ∃ one, compile [", ".intercalate rules] = .ok one) ∧
      ∀ set one, compile rules = .ok set → compile [", ".intercalate rules] = .ok one →
        set.root = one.root := by
  have hlist : ∀ rule ∈ rules, IsEntryList rule := fun rule hrule => (heach rule hrule).2
  have hcompile : ∀ rule ∈ rules, ∃ s, Rule.compile rule = .ok s := by
    intro rule hrule
    obtain ⟨one, hone⟩ := (heach rule hrule).1
    exact ⟨one.root, exists_compile_singleton_iff.mp ⟨one, hone, rfl⟩⟩
  have hnonempty : Nonempty Shape := ⟨.key⟩
  choose! root hroot using hcompile
  have hobject : ∀ rule ∈ rules, ∃ ms, root rule = .object ms := fun rule hrule =>
    (hlist rule hrule).exists_object (hroot rule hrule)
  -- both sides merge the roots of the single rules
  have hsame : ∀ s, (∃ set, compile rules = .ok set ∧ set.root = s) ↔
      ∃ one, compile [", ".intercalate rules] = .ok one ∧ one.root = s := by
    intro s
    rw [exists_compile_root_iff hne hroot hobject, exists_compile_singleton_iff,
      compile_join_eq_ok_iff hne hroot hlist hlength]
  constructor
  · constructor
    · rintro ⟨set, hset⟩
      obtain ⟨one, hone, -⟩ := (hsame set.root).mp ⟨set, hset, rfl⟩
      exact ⟨one, hone⟩
    · rintro ⟨one, hone⟩
      obtain ⟨set, hset, -⟩ := (hsame one.root).mpr ⟨one, hone, rfl⟩
      exact ⟨set, hset⟩
  · intro set one hset hone
    obtain ⟨one', hone', hroot'⟩ := (hsame set.root).mp ⟨set, hset, rfl⟩
    cases hone.symm.trans hone'
    exact hroot'.symm

/-- A rule that stands there again, and a key whose array is declared by each rule: the join has the
root of the rules, the elements of the array in the order of the first rule. -/
theorem compile_join_repeated :
    (∀ rule ∈ ["k:[a]", "k:[b, a], x", "k:[a]"],
        (∃ one, compile [rule] = .ok one) ∧ IsEntryList rule) ∧
      ∃ one, compile ["k:[a], k:[b, a], x, k:[a]"] = .ok one ∧
        one.root = .object
          [("k", .array [.object [("a", .key)], .object [("b", .key)]]), ("x", .key)] := by
  have hentries : ∀ rule : String, ∀ one, compile [rule] = .ok one →
      (∀ kind : Rule.GroupKind, (rule.toList.dropWhile (· == ' ')).head? ≠ some kind.opener) →
      (∃ one, compile [rule] = .ok one) ∧ IsEntryList rule := by
    intro rule one hone hopener
    have hrule := exists_compile_singleton_iff.mp ⟨one, hone, rfl⟩
    exact ⟨⟨one, hone⟩, (Rule.isEntryList_iff_of_compile hrule).mpr hopener⟩
  have hfirst : compile ["k:[a]"] =
      .ok ⟨.object [("k", .array [.object [("a", .key)]])], ["k:[a]"]⟩ := by
    decide +kernel
  have hsecond : compile ["k:[b, a], x"] = .ok
      ⟨.object [("k", .array [.object [("b", .key)], .object [("a", .key)]]), ("x", .key)],
        ["k:[b, a], x"]⟩ := by
    decide +kernel
  have hset : compile ["k:[a]", "k:[b, a], x", "k:[a]"] = .ok
      ⟨.object [("k", .array [.object [("a", .key)], .object [("b", .key)]]), ("x", .key)],
        ["k:[a]", "k:[b, a], x"]⟩ := by
    decide +kernel
  have hopener : ∀ rule ∈ ["k:[a]", "k:[b, a], x"], ∀ kind : Rule.GroupKind,
      (rule.toList.dropWhile (· == ' ')).head? ≠ some kind.opener := by
    intro rule hrule kind
    simp only [List.mem_cons, List.not_mem_nil, or_false] at hrule
    rcases hrule with rfl | rfl <;> cases kind <;> decide +kernel
  have heach : ∀ rule ∈ ["k:[a]", "k:[b, a], x", "k:[a]"],
      (∃ one, compile [rule] = .ok one) ∧ IsEntryList rule := by
    intro rule hrule
    simp only [List.mem_cons, List.not_mem_nil, or_false] at hrule
    rcases hrule with rfl | rfl | rfl
    · exact hentries _ _ hfirst (hopener _ (by simp))
    · exact hentries _ _ hsecond (hopener _ (by simp))
    · exact hentries _ _ hfirst (hopener _ (by simp))
  obtain ⟨hexists, hroots⟩ := compile_join (List.cons_ne_nil _ _) heach (by decide +kernel)
  obtain ⟨one, hone⟩ := hexists.mp ⟨_, hset⟩
  exact ⟨heach, one, hone, (hroots _ _ hset hone).symm⟩

end RuleSet

end Allowlist
