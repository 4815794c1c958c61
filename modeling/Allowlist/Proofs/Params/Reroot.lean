import Allowlist.Proofs.Params.Filter
import Allowlist.Proofs.Path

/-!
# Proofs.Params.Reroot — keys before and after they lose the root

Only the re-rooted key is checked against the rules, and it can be a path where the key of the
request is none: dropping the first closing bracket hides that there was none, or that something
other than a group followed it.  `ClosesFirst` is what the check does not see, and
`filter_fails_closed_iff` says that nothing else is missed.
-/

namespace Allowlist

namespace Params

open Allowlist.Path

/-- After the root a group that is not empty is closed, and then the key ends or the next group
opens. -/
def ClosesFirst (root key : String) : Prop :=
  ∃ text rest, Plain text ∧ key.toList = root.toList ++ '[' :: (text ++ ']' :: rest) ∧
    (rest = [] ∨ ∃ more, rest = '[' :: more)

/-- A key whose re-rooted form is a path is a path itself exactly if it closes its first group. -/
theorem isSome_tokenize?_iff {root source key : String} (hroot : Plain root.toList)
    (hreroot : reroot? root source = some key) (hkey : (tokenize? key).isSome) :
    (tokenize? source).isSome ↔ ClosesFirst root source := by
  obtain ⟨rest, hsource, rfl⟩ := reroot?_eq_some_iff.mp hreroot
  simp only [Option.isSome_iff_exists, tokenize?_eq_some_iff, hsource, String.toList_ofList]
    at hkey ⊢
  obtain ⟨kept, hkept⟩ := hkey
  constructor
  · rintro ⟨hops, hpath⟩
    obtain ⟨hops', hgroups, -⟩ := hpath.of_head hroot rfl
    cases hgroups with
    | anonymous =>
      -- what is left of the key is empty, and that is no path
      exact absurd rfl hkept.ne_nil
    | @bracket text rest hops htext hrest =>
      refine ⟨text, rest, htext, hsource, ?_⟩
      cases hrest <;> simp
  · rintro ⟨text, more, htext, hsource', hmore⟩
    have hrest : rest = text ++ ']' :: more := by
      simpa [hsource] using hsource'
    rw [hrest, List.erase_append_right _ (close_notMem htext.plain), List.erase_cons_head] at hkept
    have hstop : more.takeWhile isPlain = [] := by
      rcases hmore with rfl | ⟨more, rfl⟩ <;> rfl
    obtain ⟨hops, hgroups, -⟩ := hkept.of_head htext hstop
    rw [hrest]
    exact ⟨_, .head hroot (.bracket htext hgroups)⟩

/-- With rules, filtering under a root keeps nothing of a malformed key exactly if the kept keys
close their first group: nothing else gets past the check of the re-rooted key. -/
theorem filter_fails_closed_iff {root : String} {set : RuleSet} {values filtered : Values}
    (hroot : root ≠ "") (hplain : ∀ c ∈ root.toList, isPlain c = true)
    (h : filter ⟨some root, some set⟩ values = .ok filtered) :
    ((∀ key items, (key, items) ∈ filtered.entries →
        ∃ source, (source, items) ∈ values.entries ∧
          keptAs? ⟨some root, some set⟩ source = some key ∧ (tokenize? source).isSome) ∧
      ∀ source ∈ values.keys, tokenize? source = none →
        keptAs? ⟨some root, some set⟩ source = none) ↔
      ∀ source ∈ values.keys, (keptAs? ⟨some root, some set⟩ source).isSome →
        ClosesFirst root source := by
  have hwhole : Plain root.toList := ⟨by simpa using hroot, hplain⟩
  have hiff : ∀ source key, keptAs? ⟨some root, some set⟩ source = some key →
      ((tokenize? source).isSome ↔ ClosesFirst root source) := by
    intro source key hkept
    obtain ⟨hreroot, hallows⟩ := keptAs?_eq_some_iff.mp hkept
    have hrules : (⟨some root, some set⟩ : Params).rules = some set := rfl
    obtain ⟨hops, hhops, -⟩ := exists_hops_of_allows hrules hallows
    exact isSome_tokenize?_iff hwhole hreroot (by rw [hhops]; rfl)
  constructor
  · rintro ⟨-, hnone⟩ source hsource hkept
    obtain ⟨key, hkey⟩ := Option.isSome_iff_exists.mp hkept
    rw [← hiff source key hkey, Option.isSome_iff_ne_none]
    intro htokens
    rw [hnone source hsource htokens] at hkey
    cases hkey
  · intro hcloses
    refine ⟨fun key items hmem => ?_, fun source hsource htokens => ?_⟩
    · obtain ⟨source, hsource, hkept⟩ := exists_source_of_filter h hmem
      have hkey : source ∈ values.keys := List.mem_map_of_mem hsource
      exact ⟨source, hsource, hkept,
        (hiff source key hkept).mpr (hcloses source hkey (by rw [hkept]; rfl))⟩
    · cases hkept : keptAs? ⟨some root, some set⟩ source with
      | none => rfl
      | some key =>
        have hsome := (hiff source key hkept).mpr (hcloses source hsource (by rw [hkept]; rfl))
        rw [htokens] at hsome
        cases hsome

/-- A key that closes its group is a path under the root, and its value may be kept. -/
theorem filter_fails_closed_iff_closed_group :
    filter ⟨some "r", some ⟨.object [("a", .key)], ["a"]⟩⟩ ⟨[("r[a]", ["1"])]⟩ =
        .ok ⟨[("a", ["1"])]⟩ ∧
      ∃ source, (source, ["1"]) ∈ [("r[a]", ["1"])] ∧
        keptAs? ⟨some "r", some ⟨.object [("a", .key)], ["a"]⟩⟩ source = some "a" ∧
        (tokenize? source).isSome := by
  have hfilter : filter ⟨some "r", some ⟨.object [("a", .key)], ["a"]⟩⟩ ⟨[("r[a]", ["1"])]⟩ =
      .ok ⟨[("a", ["1"])]⟩ := by
    decide +kernel
  have hcloses : ∀ source ∈ Values.keys ⟨[("r[a]", ["1"])]⟩,
      (keptAs? ⟨some "r", some ⟨.object [("a", .key)], ["a"]⟩⟩ source).isSome →
        ClosesFirst "r" source := by
    intro source hsource _
    obtain rfl := List.mem_singleton.mp hsource
    exact ⟨['a'], [], ⟨by decide, by simp [isPlain]⟩, by decide +kernel, .inl rfl⟩
  have hboth := (filter_fails_closed_iff (by decide) (by simp [isPlain]) hfilter).mpr hcloses
  exact ⟨hfilter, hboth.1 "a" ["1"] (by simp)⟩

/-- A key that closes no group is no path, and its value is kept all the same. -/
theorem unclosed_key_kept :
    RuleSet.compile ["a"] = .ok ⟨.object [("a", .key)], ["a"]⟩ ∧
      filter ⟨some "r", some ⟨.object [("a", .key)], ["a"]⟩⟩ (Values.ofList [("r[a", "1")]) =
        .ok ⟨[("a", ["1"])]⟩ ∧
      ¬ ∃ source, (source, ["1"]) ∈ (Values.ofList [("r[a", "1")]).entries ∧
        (tokenize? source).isSome := by
  have hentries : (Values.ofList [("r[a", "1")]).entries = [("r[a", ["1"])] := by decide +kernel
  have htokens : tokenize? "r[a" = none := by decide +kernel
  refine ⟨by decide +kernel, by decide +kernel, ?_⟩
  rintro ⟨source, hmem, hsome⟩
  rw [hentries, List.mem_singleton] at hmem
  cases hmem
  rw [htokens] at hsome
  cases hsome

end Params

end Allowlist
