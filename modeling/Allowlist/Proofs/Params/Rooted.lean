import Allowlist.Proofs.Document.Conflict
import Allowlist.Proofs.Params.Overwrite
import Mathlib.Data.String.Basic

/-!
# Proofs.Params.Rooted — paths that lose their root

A path `root[text]…` loses the root and is the path `text…` (`reroot?_cases_of_path`).  One path has
nothing to go on as: `root[]` loses its only group and is the empty key, which is no path.  Rules
drop the empty key; without rules it is kept, stands before all other keys, and is what decoding
refuses (`filter_keeps_paths_iff`).
-/

namespace Allowlist

theorem Path.tokenize?_empty : tokenize? "" = none := by decide +kernel

namespace Document

theorem not_joins_empty (earlier : List String) : ¬ Joins earlier "" := by
  rintro ⟨⟨steps, hsteps, -⟩, -⟩
  rw [Path.steps?, Path.tokenize?_empty] at hsteps
  cases hsteps

theorem not_joinInTurn_of_empty {keys : List String} (h : "" ∈ keys) : ¬ JoinInTurn keys := by
  intro hturn
  obtain ⟨front, back, hkeys⟩ := List.append_of_mem h
  exact not_joins_empty front (hturn front "" back hkeys)

/-- The empty key stands before all others, and is what is refused. -/
theorem slots_of_empty_key {values : Values} (hsorted : Keyed.Sorted values.entries)
    (h : "" ∈ values.keys) : slots values = .error (.invalidPath "") := by
  obtain ⟨hturn, -⟩ | ⟨front, key, back, hkeys, hturn, -, herror⟩ := slots_cases values.entries
  · exact absurd hturn (not_joinInTurn_of_empty h)
  · have hpairs : (front ++ key :: back).Pairwise (· < ·) := hkeys ▸ List.pairwise_map.mpr hsorted
    rw [Values.keys, hkeys, List.mem_append, List.mem_cons] at h
    rcases h with h | rfl | h
    · exact absurd hturn (not_joinInTurn_of_empty h)
    · rw [herror, refusal, if_pos Path.tokenize?_empty]
    · -- nothing stands before the empty key
      have hlt := (List.pairwise_cons.mp (List.pairwise_append.mp hpairs).2.1).1 "" h
      exact absurd (String.lt_iff_toList_lt.mp hlt) (List.not_lt_nil _)

/-- What is refused as no path is a key that is none. -/
theorem mem_keys_of_slots_error {values : Values} {path : String}
    (h : slots values = .error (.invalidPath path)) :
    path ∈ values.keys ∧ Path.tokenize? path = none := by
  obtain ⟨-, root, hroot, -⟩ | ⟨front, key, back, hkeys, -, -, herror⟩ := slots_cases values.entries
  · cases hroot.symm.trans h
  · have hrefused := Except.error.inj (herror.symm.trans h)
    unfold refusal at hrefused
    split_ifs at hrefused with hnone
    cases hrefused
    exact ⟨by rw [Values.keys, hkeys]; simp, hnone⟩

theorem ofValues_eq_error_iff {values : Values} {error : Error} :
    ofValues values = .error error ↔ slots values = .error error := by
  refine ⟨fun h => ?_, ofValues_of_slots_error⟩
  cases hslots : slots values with
  | error e =>
    cases (ofValues_of_slots_error hslots).symm.trans h
    rfl
  | ok root =>
    obtain ⟨document, hdocument⟩ := ofValues_of_slots hslots
    cases hdocument.symm.trans h

end Document

namespace Params

open Allowlist.Path

/-- A path under the root is the root followed by `[]`, or the text of its first group becomes its
head. -/
theorem reroot?_cases_of_path {root source key : String} {hops : List Hop}
    (hroot : Plain root.toList) (hreroot : reroot? root source = some key)
    (hpath : tokenize? source = some hops) :
    (source = root ++ "[]" ∧ key = "") ∨
      ∃ text rest, hops = .name root :: .bracket text :: rest ∧
        tokenize? key = some (.name text :: rest) := by
  obtain ⟨rest, hsource, rfl⟩ := reroot?_eq_some_iff.mp hreroot
  rw [tokenize?_eq_some_iff, hsource] at hpath
  obtain ⟨hops', hgroups, rfl⟩ := hpath.of_head hroot rfl
  rw [String.ofList_toList]
  cases hgroups with
  | anonymous => exact .inl ⟨String.toList_injective (by simpa using hsource), rfl⟩
  | @bracket text more hops htext hmore =>
    refine .inr ⟨String.ofList text, hops, rfl, ?_⟩
    rw [tokenize?_eq_some_iff, String.toList_ofList, List.erase_append_right _
      (close_notMem htext.plain), List.erase_cons_head]
    exact .head htext hmore

/-! ### Filtered keys -/

theorem mem_keys_filter_iff {params : Params} {values filtered : Values}
    (h : params.filter values = .ok filtered) {key : String} :
    key ∈ filtered.keys ↔ ∃ source ∈ values.keys, params.keptAs? source = some key := by
  constructor
  · intro hkey
    obtain ⟨⟨_, items⟩, hmem, rfl⟩ := List.mem_map.mp hkey
    obtain ⟨source, hsource, hkept⟩ := exists_source_of_filter h hmem
    exact ⟨source, List.mem_map_of_mem hsource, hkept⟩
  · rintro ⟨source, hsource, hkept⟩
    obtain ⟨entry, hentry, rfl⟩ := List.mem_map.mp hsource
    obtain ⟨items, hlast⟩ := exists_lastKept (List.mem_filterMap.mpr ⟨entry, hentry, hkept⟩)
    obtain ⟨-, rfl⟩ := filter_eq_ok_iff.mp h
    have hsorted : Keyed.Sorted Values.empty.entries := Keyed.sorted_nil
    exact List.mem_map_of_mem ((mem_foldl_keep_iff hsorted).mpr (.inl hlast))

/-- The empty key is kept of paths exactly if there are no rules and one path is `root[]`. -/
theorem empty_mem_keys_filter_iff {root : String} {rules : Option RuleSet}
    {values filtered : Values} (hroot : Plain root.toList)
    (hpaths : ∀ key ∈ values.keys, (tokenize? key).isSome)
    (h : filter ⟨some root, rules⟩ values = .ok filtered) :
    "" ∈ filtered.keys ↔ rules = none ∧ root ++ "[]" ∈ values.keys := by
  rw [mem_keys_filter_iff h]
  constructor
  · rintro ⟨source, hsource, hkept⟩
    obtain ⟨hreroot, hallows⟩ := keptAs?_eq_some_iff.mp hkept
    obtain ⟨hops, hhops⟩ := Option.isSome_iff_exists.mp (hpaths source hsource)
    obtain ⟨rfl, -⟩ | ⟨text, rest, -, htokens⟩ := reroot?_cases_of_path hroot hreroot hhops
    · refine ⟨?_, hsource⟩
      cases hrules : rules with
      | none => rfl
      | some set =>
        subst hrules
        obtain ⟨hops', htokens, -⟩ := exists_hops_of_allows rfl hallows
        cases tokenize?_empty.symm.trans htokens
    · cases tokenize?_empty.symm.trans htokens
  · rintro ⟨rfl, hmem⟩
    refine ⟨_, hmem, keptAs?_eq_some_iff.mpr ⟨?_, rfl⟩⟩
    exact reroot?_eq_some_iff.mpr ⟨[']'], by simp, rfl⟩

theorem decodeValues_eq_document_error_iff {schema : Schema} {values : Values}
    {error : Document.Error} :
    decodeValues schema values = .error (.document error) ↔
      Document.ofValues values = .error error := by
  unfold decodeValues
  cases Document.ofValues values with
  | error e => simp [Except.mapError, bind, Except.bind]
  | ok document =>
    cases hfit : schema.fit document <;> simp [Except.mapError, bind, Except.bind, hfit]

theorem decode_eq_of_filter {params : Params} {values filtered : Values}
    (h : params.filter values = .ok filtered) (schema : Schema) :
    params.decode schema values = decodeValues schema filtered := by
  rw [decode, h]
  rfl

/-- Under a root without brackets paths stay paths, and decoding them refuses no key as malformed,
unless there are no rules and one of the paths is `root[]`: it is kept as the empty key, and this is
what decoding refuses.  Every other path that is kept has its first group as its new head. -/
theorem filter_keeps_paths_iff {root : String} {rules : Option RuleSet} {values filtered : Values}
    (hroot : root ≠ "") (hplain : ∀ c ∈ root.toList, isPlain c = true)
    (hpaths : ∀ key ∈ values.keys, (tokenize? key).isSome)
    (h : filter ⟨some root, rules⟩ values = .ok filtered) :
    ((∀ key ∈ filtered.keys, (tokenize? key).isSome) ↔
        ¬ (rules = none ∧ root ++ "[]" ∈ values.keys)) ∧
      (∀ schema path,
        decode ⟨some root, rules⟩ schema values = .error (.document (.invalidPath path)) ↔
          path = "" ∧ rules = none ∧ root ++ "[]" ∈ values.keys) ∧
      ∀ source ∈ values.keys, source ≠ root ++ "[]" → ∀ key,
        keptAs? ⟨some root, rules⟩ source = some key →
          ∃ text hops, tokenize? source = some (.name root :: .bracket text :: hops) ∧
            tokenize? key = some (.name text :: hops) := by
  have hwhole : Plain root.toList := ⟨by simpa using hroot, hplain⟩
  have hsource : ∀ source ∈ values.keys, ∀ key, keptAs? ⟨some root, rules⟩ source = some key →
      (source = root ++ "[]" ∧ key = "") ∨
        ∃ text hops, tokenize? source = some (.name root :: .bracket text :: hops) ∧
          tokenize? key = some (.name text :: hops) := by
    intro source hsource key hkept
    obtain ⟨hops, hhops⟩ := Option.isSome_iff_exists.mp (hpaths source hsource)
    obtain hempty | ⟨text, rest, rfl, htokens⟩ :=
      reroot?_cases_of_path hwhole (keptAs?_eq_some_iff.mp hkept).1 hhops
    · exact .inl hempty
    · exact .inr ⟨text, rest, hhops, htokens⟩
  -- among the filtered keys only the empty one is no path
  have hkeys : ∀ key ∈ filtered.keys, key ≠ "" → (tokenize? key).isSome := by
    intro key hkey hne
    obtain ⟨source, hmem, hkept⟩ := (mem_keys_filter_iff h).mp hkey
    obtain ⟨-, hempty⟩ | ⟨text, hops, -, htokens⟩ := hsource source hmem key hkept
    · exact absurd hempty hne
    · rw [htokens]
      rfl
  have hempty := empty_mem_keys_filter_iff hwhole hpaths h
  refine ⟨?_, fun schema path => ?_, fun source hmem hne key hkept => ?_⟩
  · rw [← hempty]
    constructor
    · intro hall hkey
      have hsome := hall "" hkey
      rw [tokenize?_empty] at hsome
      cases hsome
    · exact fun hnot key hkey => hkeys key hkey fun he => hnot (he ▸ hkey)
  · rw [decode_eq_of_filter h, decodeValues_eq_document_error_iff, Document.ofValues_eq_error_iff,
      ← hempty]
    constructor
    · intro herror
      obtain ⟨hkey, hnone⟩ := Document.mem_keys_of_slots_error herror
      have hpath : path = "" := by
        by_contra hne
        have hsome := hkeys path hkey hne
        rw [hnone] at hsome
        cases hsome
      exact ⟨hpath, hpath ▸ hkey⟩
    · rintro ⟨rfl, hkey⟩
      exact Document.slots_of_empty_key (sorted_filter h) hkey
  · obtain ⟨rfl, -⟩ | hpath := hsource source hmem key hkept
    · exact absurd rfl hne
    · exact hpath

/-- Elements that are appended to a list under the root, and one directly under it that rules
drop. -/
theorem filter_keeps_paths_iff_appended :
    filter ⟨some "r", some ⟨.object [("a", .array [])], ["a:[]"]⟩⟩
        ⟨[("r[]", ["1"]), ("r[a][]", ["2", "3"])]⟩ = .ok ⟨[("a[]", ["2", "3"])]⟩ ∧
      (tokenize? "a[]").isSome := by
  have hfilter : filter ⟨some "r", some ⟨.object [("a", .array [])], ["a:[]"]⟩⟩
      ⟨[("r[]", ["1"]), ("r[a][]", ["2", "3"])]⟩ = .ok ⟨[("a[]", ["2", "3"])]⟩ := by
    decide +kernel
  have hpaths : ∀ key ∈ Values.keys ⟨[("r[]", ["1"]), ("r[a][]", ["2", "3"])]⟩,
      (tokenize? key).isSome := by
    decide +kernel
  have hall := (filter_keeps_paths_iff (by decide) (by simp [isPlain]) hpaths hfilter).1.mpr
    (fun hnone => by cases hnone.1)
  exact ⟨hfilter, hall "a[]" (by simp [Values.keys])⟩

/-- An element directly under the root is kept as the empty key, which decoding refuses. -/
theorem element_of_root_refused :
    (tokenize? "r[]").isSome ∧
      filter ⟨some "r", none⟩ (Values.ofList [("r[]", "1")]) = .ok ⟨[("", ["1"])]⟩ ∧
      tokenize? "" = none ∧
      ∀ schema, decode ⟨some "r", none⟩ schema (Values.ofList [("r[]", "1")]) =
        .error (.document (.invalidPath "")) := by
  have hfilter : filter ⟨some "r", none⟩ (Values.ofList [("r[]", "1")]) = .ok ⟨[("", ["1"])]⟩ := by
    decide +kernel
  have hslots : Document.slots ⟨[("", ["1"])]⟩ = .error (.invalidPath "") :=
    Document.slots_of_empty_key (sorted_filter hfilter) (by simp [Values.keys])
  refine ⟨by decide +kernel, hfilter, tokenize?_empty, fun schema => ?_⟩
  rw [decode_eq_of_filter hfilter, decodeValues_eq_document_error_iff,
    Document.ofValues_eq_error_iff, hslots]

end Params

end Allowlist
