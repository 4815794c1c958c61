import Allowlist.Proofs.Params.Rooted
import Allowlist.Proofs.RuleSet.Route

/-!
# Proofs.Params.Beneath — matching what lies beneath the root

The filter takes the root off the text of a key before the key is matched.  On the hops of a path
this is dropping the first hop: the path has to start with the root as its head and go on
(`exists_reroot?_iff`), and the next hop becomes the new head.  Shapes do not tell a head from the
same text in brackets, so a key passes the rules exactly if they accept the hops beneath the root
(`reroot?_permitted_iff_beneath`).
-/

namespace Allowlist.Params

open Allowlist.Path

/-! ### Hops beneath the root -/

/-- What a path with the root as its head loses: the marker, which leaves the empty key, or the
brackets around its next text. -/
theorem beneath_cases {root source key : String} {hops : List Hop} (hroot : Plain root.toList)
    (hreroot : reroot? root source = some key) (hpath : tokenize? source = some hops) :
    (hops = [.name root, .anonymous] ∧ key = "") ∨
      ∃ text rest, hops = .name root :: .bracket text :: rest ∧
        tokenize? key = some (.name text :: rest) := by
  obtain ⟨rfl, hkey⟩ | hbeneath := reroot?_cases_of_path hroot hreroot hpath
  · have hmarker := PathText.head hroot .anonymous
    rw [String.ofList_toList] at hmarker
    have htokens : tokenize? (root ++ "[]") = some [.name root, .anonymous] :=
      tokenize?_eq_some_iff.mpr (by rwa [String.toList_append])
    exact .inl ⟨Option.some.inj (hpath.symm.trans htokens), hkey⟩
  · exact .inr hbeneath

/-- The paths that are re-rooted have the root as their head and at least one hop beneath it. -/
theorem exists_reroot?_iff {root source : String} {hops : List Hop} (hroot : Plain root.toList)
    (hpath : tokenize? source = some hops) :
    (∃ key, reroot? root source = some key) ↔ ∃ first rest, hops = .name root :: first :: rest := by
  constructor
  · rintro ⟨key, hreroot⟩
    obtain ⟨rfl, -⟩ | ⟨text, rest, rfl, -⟩ := beneath_cases hroot hreroot hpath
    · exact ⟨_, _, rfl⟩
    · exact ⟨_, _, rfl⟩
  · rintro ⟨first, rest, rfl⟩
    obtain ⟨hrender, hplaced⟩ := render_of_tokenize? hpath
    -- behind the head every hop is written in brackets
    obtain ⟨more, hmore⟩ : ∃ more, first.render.toList = '[' :: more := by
      cases first with
      | name text => exact absurd List.mem_cons_self (hplaced.ne_name_of_mem_tail text)
      | bracket text => exact ⟨text.toList ++ [']'], by simp [Hop.render]⟩
      | anonymous => exact ⟨[']'], rfl⟩
    refine ⟨_, reroot?_eq_some_iff.mpr ⟨more ++ (render rest).toList, ?_, rfl⟩⟩
    rw [← hrender, render_cons, render_cons, String.toList_append, String.toList_append, hmore]
    rfl

/-- A path is matched as if its head stood in brackets. -/
theorem permits_eq_accepts_bracket {set : RuleSet} {key text : String} {rest : List Hop}
    (htokens : tokenize? key = some (.name text :: rest)) :
    set.permits key = set.root.accepts (.bracket text :: rest) := by
  rw [RuleSet.permits, htokens, Option.any_some]
  exact set.root.accepts_congr
    (.cons (Hop.alike_bracket text) (List.forall₂_same.mpr fun hop _ => hop.alike_self))

/-! ### Keys beside the root -/

/-- A key that ends with the root, or goes on with something else than a bracket, is not under
it. -/
theorem reroot?_append_eq_none {root tail : String} (htail : tail.toList.head? ≠ some '[') :
    reroot? root (root ++ tail) = none := by
  rw [Option.eq_none_iff_forall_ne_some]
  intro key hreroot
  obtain ⟨rest, hkey, -⟩ := reroot?_eq_some_iff.mp hreroot
  rw [String.toList_append] at hkey
  rw [List.append_cancel_left hkey] at htail
  exact htail rfl

/-- A key that starts with a bracket is not under a root without brackets. -/
theorem reroot?_bracket_eq_none {root : String} (hroot : Plain root.toList) (tail : String) :
    reroot? root ("[" ++ tail) = none := by
  rw [Option.eq_none_iff_forall_ne_some]
  intro key hreroot
  obtain ⟨rest, hkey, -⟩ := reroot?_eq_some_iff.mp hreroot
  have hopen : "[".toList = ['['] := rfl
  rw [String.toList_append, hopen, List.singleton_append] at hkey
  have hnot := open_notMem hroot.plain
  cases hchars : root.toList with
  | nil => exact hroot.ne_nil hchars
  | cons c cs =>
    rw [hchars, List.cons_append] at hkey
    rw [hchars, (List.cons.inj hkey).1] at hnot
    exact hnot List.mem_cons_self

/-! ### Matching -/

/-- A path is permitted without the root exactly if the root is its head, the next hop carries a
text, and the rules accept the hops from there on; the re-rooted key is then a path with these hops,
the first of them bare.  A path without that head, or with nothing beneath it, is not re-rooted;
neither is any key that ends with the root or goes on with something else than a bracket behind it,
nor one that starts with a bracket. -/
theorem reroot?_permitted_iff_beneath {root key : String} {set : RuleSet} {hops : List Hop}
    (hroot : root ≠ "") (hplain : ∀ c ∈ root.toList, isPlain c = true)
    (htokens : tokenize? key = some hops) :
    ((∃ key', reroot? root key = some key' ∧ set.permits key' = true) ↔
      ∃ first rest text, hops = .name root :: first :: rest ∧ first.text? = some text ∧
        set.root.accepts (first :: rest) = true) ∧
    (∀ key', reroot? root key = some key' → set.permits key' = true →
      ∃ first rest text, hops = .name root :: first :: rest ∧ first.text? = some text ∧
        tokenize? key' = some (.name text :: rest)) ∧
    (reroot? root key = none ↔ ∀ first rest, hops ≠ .name root :: first :: rest) ∧
    (∀ tail : String, tail.toList.head? ≠ some '[' → reroot? root (root ++ tail) = none) ∧
    ∀ tail : String, reroot? root ("[" ++ tail) = none := by
  have hwhole : Plain root.toList := ⟨by simpa using hroot, hplain⟩
  have hexists := exists_reroot?_iff hwhole htokens
  -- the empty key, which is left of `root[]`, is no path and so never permitted
  have hbeneath : ∀ key', reroot? root key = some key' → set.permits key' = true →
      ∃ text rest, hops = .name root :: .bracket text :: rest ∧
        tokenize? key' = some (.name text :: rest) := by
    intro key' hreroot hpermits
    obtain ⟨-, rfl⟩ | hpath := beneath_cases hwhole hreroot htokens
    · rw [RuleSet.permits, tokenize?_empty] at hpermits
      cases hpermits
    · exact hpath
  refine ⟨⟨?_, ?_⟩, ?_, ?_, fun _ => reroot?_append_eq_none, reroot?_bracket_eq_none hwhole⟩
  · rintro ⟨key', hreroot, hpermits⟩
    obtain ⟨text, rest, rfl, htokens'⟩ := hbeneath key' hreroot hpermits
    rw [permits_eq_accepts_bracket htokens'] at hpermits
    exact ⟨.bracket text, rest, text, rfl, rfl, hpermits⟩
  · rintro ⟨first, rest, text, rfl, htext, haccepts⟩
    obtain ⟨key', hreroot⟩ := hexists.mpr ⟨first, rest, rfl⟩
    refine ⟨key', hreroot, ?_⟩
    obtain ⟨hhops, -⟩ | ⟨text', rest', hhops, htokens'⟩ := beneath_cases hwhole hreroot htokens
    · cases hhops
      cases htext
    · cases hhops
      rw [permits_eq_accepts_bracket htokens', haccepts]
  · intro key' hreroot hpermits
    obtain ⟨text, rest, rfl, htokens'⟩ := hbeneath key' hreroot hpermits
    exact ⟨.bracket text, rest, text, rfl, rfl, htokens'⟩
  · rw [Option.eq_none_iff_forall_ne_some, ← not_exists, hexists]
    push Not
    rfl

/-- A member of a list under the root: the index after the root is a number, and stays one as the
new head. -/
theorem reroot?_permitted_iff_beneath_element :
    RuleSet.compile ["[a]"] = .ok ⟨.array [.object [("a", .key)]], ["[a]"]⟩ ∧
      (∃ key', reroot? "r" "r[0][a]" = some key' ∧
        RuleSet.permits ⟨.array [.object [("a", .key)]], ["[a]"]⟩ key' = true ∧
        tokenize? key' = some [.name "0", .bracket "a"]) ∧
      reroot? "r" "r" = none ∧ reroot? "r" "rX[0][a]" = none ∧ reroot? "r" "[r][0][a]" = none := by
  have htokens : tokenize? "r[0][a]" = some [.name "r", .bracket "0", .bracket "a"] := by
    decide +kernel
  obtain ⟨hiff, hhops, -, hbeside, hbracket⟩ :=
    @reroot?_permitted_iff_beneath "r" "r[0][a]" ⟨.array [.object [("a", .key)]], ["[a]"]⟩ _
      (by decide) (by simp [isPlain]) htokens
  obtain ⟨key', hreroot, hpermits⟩ :=
    hiff.mpr ⟨.bracket "0", [.bracket "a"], "0", rfl, rfl, by decide⟩
  obtain ⟨first, rest, text, he, htext, htokens'⟩ := hhops key' hreroot hpermits
  cases he
  cases htext
  exact ⟨by decide +kernel, ⟨key', hreroot, hpermits, htokens'⟩, hbeside "" (by decide),
    hbeside "X[0][a]" (by decide), hbracket "r][0][a]"⟩

end Allowlist.Params
