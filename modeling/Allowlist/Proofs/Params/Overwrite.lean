import Allowlist.Proofs.Params.Filter
import Allowlist.Proofs.Path
import Mathlib.Data.List.Induction
import Mathlib.Data.List.Pairwise

/-!
# Proofs.Params.Overwrite — values of kept keys that are lost

Two keys of a request can lose the root and be one key.  Then the later one takes the place of the
earlier one, whose values are gone.  So the filter has as many values as the keys that it keeps
exactly if no two of them become one key (`filter_keeps_values_iff`), and of two keys that do, one
is no path: dropping the first closing bracket can be undone for paths only
(`reroot?_injective_of_path`).
-/

namespace Allowlist

namespace Values

open scoped List

theorem length_toList (values : Values) :
    values.toList.length = (values.entries.flatMap (·.2)).length := by
  simp [toList, List.length_flatMap]

/-- What `key` had before is replaced. -/
theorem length_toList_put {values : Values} (h : Keyed.Sorted values.entries) (key : String)
    (items : List String) :
    (values.put key items).toList.length + (values.getAll key).length =
      values.toList.length + items.length := by
  have hput : (values.put key items).entries ~ (key, items) :: values.entries.filter (·.1 != key) :=
    h.insert_perm key items
  have hnew := (hput.flatMap_right (·.2)).length_eq
  simp only [List.flatMap_cons, List.length_append] at hnew
  rw [length_toList, length_toList, hnew, getAll]
  cases hl : values.entries.lookup key with
  | none =>
    have hothers : values.entries.filter (·.1 != key) = values.entries := by
      rw [List.filter_eq_self]
      intro entry hmem
      have hne := bne_iff_ne.mp (List.lookup_eq_none_iff.mp hl entry hmem)
      exact bne_iff_ne.mpr hne.symm
    rw [hothers]
    simp [Nat.add_comm]
  | some old =>
    have hold := ((h.perm_of_lookup hl).flatMap_right (·.2)).length_eq
    simp only [List.flatMap_cons, List.length_append] at hold
    rw [Option.getD_some, hold]
    omega

end Values

namespace Params

open Allowlist.Path

/-! ### Keys that become one key -/

/-- A path closes the bracket behind the root, so the root can be put back. -/
theorem reroot?_injective_of_path {root a b key : String} (ha : reroot? root a = some key)
    (hb : reroot? root b = some key) (hpath : (tokenize? a).isSome)
    (hpath' : (tokenize? b).isSome) : a = b := by
  have hsplit : ∀ source, reroot? root source = some key → (tokenize? source).isSome →
      source.toList = root.toList ++ '[' ::
        (key.toList.takeWhile isPlain ++ ']' :: key.toList.dropWhile isPlain) := by
    intro source hreroot hsource
    obtain ⟨rest, hrest, rfl⟩ := reroot?_eq_some_iff.mp hreroot
    obtain ⟨hops, htokens⟩ := Option.isSome_iff_exists.mp hsource
    obtain ⟨text, more, hops', htext, rfl, hmore⟩ :=
      (tokenize?_eq_some_iff.mp htokens).of_open hrest
    have hdrop : more.dropWhile isPlain = more := by
      have hall := List.takeWhile_append_dropWhile (p := isPlain) (l := more)
      rwa [hmore.takeWhile_eq_nil, List.nil_append] at hall
    rw [hrest, String.toList_ofList, List.erase_append_right _ (close_notMem htext),
      List.erase_cons_head, List.takeWhile_append_of_pos htext, hmore.takeWhile_eq_nil,
      List.append_nil, List.dropWhile_append_of_pos htext, hdrop]
  exact String.toList_injective ((hsplit a ha hpath).trans (hsplit b hb hpath').symm)

/-! ### The filter, entry by entry -/

theorem foldl_keep_concat (params : Params) (entries : List (String × List String))
    (entry : String × List String) (kept : Values) :
    (entries ++ [entry]).foldl params.keep kept =
      params.keep (entries.foldl params.keep kept) entry := by
  rw [List.foldl_append, List.foldl_cons, List.foldl_nil]

theorem sorted_keep {params : Params} {kept : Values} (h : Keyed.Sorted kept.entries)
    (entry : String × List String) : Keyed.Sorted (params.keep kept entry).entries := by
  unfold keep
  split
  · exact h.insert _ _
  · exact h

theorem sorted_foldl_keep (params : Params) (entries : List (String × List String)) :
    Keyed.Sorted (entries.foldl params.keep Values.empty).entries := by
  induction entries using List.reverseRecOn with
  | nil => exact Keyed.sorted_nil
  | append_singleton entries entry ih =>
    rw [foldl_keep_concat]
    exact sorted_keep ih entry

theorem mem_keep_iff {params : Params} {kept : Values} (h : Keyed.Sorted kept.entries)
    {entry : String × List String} {key : String} {items : List String} :
    (key, items) ∈ (params.keep kept entry).entries ↔
      (params.keptAs? entry.1 = some key ∧ items = entry.2) ∨
        (key, items) ∈ kept.entries ∧ params.keptAs? entry.1 ≠ some key := by
  unfold keep
  split
  · next key' hkept =>
    rw [Values.put, h.mem_insert, hkept, Prod.mk.injEq, ne_eq, Option.some.injEq]
    grind
  · next hkept => simp [hkept]

theorem sorted_filter {params : Params} {values filtered : Values}
    (h : params.filter values = .ok filtered) : Keyed.Sorted filtered.entries := by
  obtain ⟨-, rfl⟩ := filter_eq_ok_iff.mp h
  exact sorted_foldl_keep params values.entries

/-- The entry stands in the list, and no key behind it is kept under the same key. -/
def LastKept (params : Params) (entries : List (String × List String)) (key : String)
    (items : List String) : Prop :=
  ∃ front source back, entries = front ++ (source, items) :: back ∧
    params.keptAs? source = some key ∧ ∀ later ∈ back, params.keptAs? later.1 ≠ some key

theorem lastKept_cons_iff {params : Params} {entry : String × List String}
    {entries : List (String × List String)} {key : String} {items : List String} :
    params.LastKept (entry :: entries) key items ↔
      params.LastKept entries key items ∨
        (params.keptAs? entry.1 = some key ∧ items = entry.2) ∧
          ∀ later ∈ entries, params.keptAs? later.1 ≠ some key := by
  constructor
  · rintro ⟨front, source, back, he, hkept, hlater⟩
    cases front with
    | nil =>
      obtain ⟨rfl, rfl⟩ := List.cons.inj he
      exact .inr ⟨⟨hkept, rfl⟩, hlater⟩
    | cons first front => exact .inl ⟨front, source, back, (List.cons.inj he).2, hkept, hlater⟩
  · rintro (⟨front, source, back, rfl, hkept, hlater⟩ | ⟨⟨hkept, rfl⟩, hlater⟩)
    · exact ⟨entry :: front, source, back, rfl, hkept, hlater⟩
    · exact ⟨[], entry.1, entries, rfl, hkept, hlater⟩

/-- Of the entries that are kept under one key, the last one stays. -/
theorem mem_foldl_keep_iff {params : Params} {entries : List (String × List String)}
    {kept : Values} (h : Keyed.Sorted kept.entries) {key : String} {items : List String} :
    (key, items) ∈ (entries.foldl params.keep kept).entries ↔
      params.LastKept entries key items ∨
        (key, items) ∈ kept.entries ∧ ∀ entry ∈ entries, params.keptAs? entry.1 ≠ some key := by
  induction entries generalizing kept with
  | nil => simp [LastKept]
  | cons entry entries ih =>
    rw [List.foldl_cons, ih (sorted_keep h entry), mem_keep_iff h, lastKept_cons_iff,
      List.forall_mem_cons]
    tauto

/-! ### How many values are kept -/

/-- The keys that are kept, as they are kept. -/
def keptKeys (params : Params) (entries : List (String × List String)) : List String :=
  entries.filterMap fun entry => params.keptAs? entry.1

/-- The number of values under the keys that are kept. -/
def keptCount (params : Params) (entries : List (String × List String)) : Nat :=
  ((entries.filter fun entry => (params.keptAs? entry.1).isSome).flatMap (·.2)).length

theorem LastKept.mem_keptKeys {params : Params} {entries : List (String × List String)}
    {key : String} {items : List String} (h : params.LastKept entries key items) :
    key ∈ params.keptKeys entries := by
  obtain ⟨front, source, back, rfl, hkept, -⟩ := h
  exact List.mem_filterMap.mpr ⟨(source, items), by simp, hkept⟩

theorem exists_lastKept {params : Params} {entries : List (String × List String)} {key : String}
    (h : key ∈ params.keptKeys entries) : ∃ items, params.LastKept entries key items := by
  induction entries with
  | nil => cases h
  | cons entry entries ih =>
    by_cases hlater : key ∈ params.keptKeys entries
    · obtain ⟨items, hlast⟩ := ih hlater
      exact ⟨items, lastKept_cons_iff.mpr (.inl hlast)⟩
    · obtain ⟨source, hmem, hkept⟩ := List.mem_filterMap.mp h
      have hnone : ∀ later ∈ entries, params.keptAs? later.1 ≠ some key := fun later hmem hkept =>
        hlater (List.mem_filterMap.mpr ⟨later, hmem, hkept⟩)
      rcases List.mem_cons.mp hmem with rfl | hmem
      · exact ⟨source.2, lastKept_cons_iff.mpr (.inr ⟨⟨hkept, rfl⟩, hnone⟩)⟩
      · exact absurd hkept (hnone source hmem)

/-- A key has values exactly if something is kept as it. -/
theorem getAll_foldl_keep_eq_nil_iff {params : Params} {entries : List (String × List String)}
    (hitems : ∀ entry ∈ entries, entry.2 ≠ []) {key : String} :
    (entries.foldl params.keep Values.empty).getAll key = [] ↔ key ∉ params.keptKeys entries := by
  have hsorted := sorted_foldl_keep params entries
  have hmem := @mem_foldl_keep_iff params entries Values.empty Keyed.sorted_nil key
  unfold Values.getAll
  cases hl : (entries.foldl params.keep Values.empty).entries.lookup key with
  | none =>
    refine iff_of_true rfl fun hkey => ?_
    obtain ⟨items, hlast⟩ := exists_lastKept hkey
    rw [hsorted.lookup_eq_some_iff.mpr (hmem.mpr (.inl hlast))] at hl
    cases hl
  | some items =>
    obtain hlast | ⟨hnone, -⟩ := hmem.mp (hsorted.lookup_eq_some_iff.mp hl)
    · refine iff_of_false ?_ fun hkey => hkey hlast.mem_keptKeys
      obtain ⟨front, source, back, rfl, -, -⟩ := hlast
      exact hitems (source, items) (by simp)
    · cases hnone

/-- The filter has no more values than the keys that it keeps, and as many exactly if they are kept
as different keys. -/
theorem length_foldl_keep {params : Params} {entries : List (String × List String)}
    (hitems : ∀ entry ∈ entries, entry.2 ≠ []) :
    (entries.foldl params.keep Values.empty).toList.length ≤ params.keptCount entries ∧
      ((entries.foldl params.keep Values.empty).toList.length = params.keptCount entries ↔
        (params.keptKeys entries).Nodup) := by
  induction entries using List.reverseRecOn with
  | nil => exact ⟨le_rfl, iff_of_true rfl List.nodup_nil⟩
  | append_singleton entries entry ih =>
    obtain ⟨hle, hiff⟩ := ih fun e he => hitems e (List.mem_append_left _ he)
    rw [foldl_keep_concat]
    cases hkept : params.keptAs? entry.1 with
    | none =>
      have hkeep : params.keep (entries.foldl params.keep Values.empty) entry =
          entries.foldl params.keep Values.empty := by
        simp [keep, hkept]
      have hcount : params.keptCount (entries ++ [entry]) = params.keptCount entries := by
        simp [keptCount, hkept]
      have hkeys : params.keptKeys (entries ++ [entry]) = params.keptKeys entries := by
        simp [keptKeys, hkept]
      rw [hkeep, hcount, hkeys]
      exact ⟨hle, hiff⟩
    | some key =>
      have hkeep : params.keep (entries.foldl params.keep Values.empty) entry =
          (entries.foldl params.keep Values.empty).put key entry.2 := by
        simp [keep, hkept]
      have hcount : params.keptCount (entries ++ [entry]) =
          params.keptCount entries + entry.2.length := by
        simp [keptCount, hkept]
      have hkeys : params.keptKeys (entries ++ [entry]) = params.keptKeys entries ++ [key] := by
        simp [keptKeys, hkept]
      -- what the key had before is what is lost
      have hput := Values.length_toList_put (sorted_foldl_keep params entries) key entry.2
      have hold := @getAll_foldl_keep_eq_nil_iff params entries
        (fun e he => hitems e (List.mem_append_left _ he)) key
      rw [← List.length_eq_zero_iff] at hold
      have hnodup : (params.keptKeys entries ++ [key]).Nodup ↔
          (params.keptKeys entries).Nodup ∧ key ∉ params.keptKeys entries := by
        rw [← List.concat_eq_append, List.nodup_concat, and_comm]
      rw [hkeep, hcount, hkeys, hnodup, ← hiff, ← hold]
      omega

/-- Nothing is kept of the one key where it is kept of the other. -/
def Apart (params : Params) (a b : String) : Prop :=
  ∀ key, params.keptAs? a = some key → params.keptAs? b ≠ some key

instance (params : Params) : Std.Symm params.Apart :=
  ⟨fun _ _ h key hb ha => h key ha hb⟩

/-- Different keys are kept as different keys exactly if any two are kept apart. -/
theorem nodup_keptKeys_iff {params : Params} {values : Values} (h : values.keys.Nodup) :
    (params.keptKeys values.entries).Nodup ↔
      ∀ a ∈ values.keys, ∀ b ∈ values.keys, a ≠ b → params.Apart a b := by
  have hkeys : params.keptKeys values.entries = values.keys.filterMap params.keptAs? := by
    rw [Values.keys, List.filterMap_map]
    rfl
  have hpairs : (params.keptKeys values.entries).Nodup ↔ values.keys.Pairwise params.Apart := by
    rw [hkeys, List.Nodup, List.pairwise_filterMap]
    refine List.Pairwise.iff fun a b => ?_
    constructor
    · exact fun hne key ha hb => hne key ha key hb rfl
    · exact fun hapart key ha key' hb he => hapart key ha (he ▸ hb)
  rw [hpairs]
  exact ⟨fun hall a ha b hb hne => hall.forall ha hb hne, fun hall => h.pairwise_of_forall_ne hall⟩

/-- The filter has as many values as the keys that it keeps exactly if it keeps any two of them
apart.  Of the entries that are kept under one key it has the last; and of two different keys that
become one by losing the root, one at least is no path. -/
theorem filter_keeps_values_iff {root : String} {rules : Option RuleSet} {values filtered : Values}
    (hvalues : Keyed.Sorted values.entries) (hitems : ∀ entry ∈ values.entries, entry.2 ≠ [])
    (h : filter ⟨some root, rules⟩ values = .ok filtered) :
    (filtered.toList.length = keptCount ⟨some root, rules⟩ values.entries ↔
        ∀ a ∈ values.keys, ∀ b ∈ values.keys, a ≠ b → Apart ⟨some root, rules⟩ a b) ∧
      (∀ key items, (key, items) ∈ filtered.entries ↔
        LastKept ⟨some root, rules⟩ values.entries key items) ∧
      ∀ a b key, a ≠ b → reroot? root a = some key → reroot? root b = some key →
        tokenize? a = none ∨ tokenize? b = none := by
  obtain ⟨-, rfl⟩ := filter_eq_ok_iff.mp h
  refine ⟨?_, fun key items => ?_, fun a b key hne ha hb => ?_⟩
  · rw [(length_foldl_keep hitems).2]
    exact nodup_keptKeys_iff hvalues.nodup_keys
  · have hsorted : Keyed.Sorted Values.empty.entries := Keyed.sorted_nil
    rw [mem_foldl_keep_iff hsorted]
    exact or_iff_left fun hnone => absurd hnone.1 List.not_mem_nil
  · by_contra hpaths
    rw [not_or, ← ne_eq, ← ne_eq, ← Option.isSome_iff_ne_none, ← Option.isSome_iff_ne_none]
      at hpaths
    exact hne (reroot?_injective_of_path ha hb hpaths.1 hpaths.2)

/-- Under a root two paths and a key that is none, with and without closing bracket, and the values
of all that are permitted. -/
theorem filter_keeps_values_iff_apart :
    filter ⟨some "r", some ⟨.object [("a", .array []), ("b", .key)], ["a:[], b"]⟩⟩
        ⟨[("r[a][]", ["1", "2"]), ("r[b", ["3"]), ("r[c]", ["4"])]⟩ =
          .ok ⟨[("a[]", ["1", "2"]), ("b", ["3"])]⟩ ∧
      (Values.mk [("a[]", ["1", "2"]), ("b", ["3"])]).toList.length =
        keptCount ⟨some "r", some ⟨.object [("a", .array []), ("b", .key)], ["a:[], b"]⟩⟩
          [("r[a][]", ["1", "2"]), ("r[b", ["3"]), ("r[c]", ["4"])] := by
  have hfilter : filter ⟨some "r", some ⟨.object [("a", .array []), ("b", .key)], ["a:[], b"]⟩⟩
      ⟨[("r[a][]", ["1", "2"]), ("r[b", ["3"]), ("r[c]", ["4"])]⟩ =
        .ok ⟨[("a[]", ["1", "2"]), ("b", ["3"])]⟩ := by
    decide +kernel
  have hsorted : Keyed.Sorted [("r[a][]", ["1", "2"]), ("r[b", ["3"]), ("r[c]", ["4"])] := by
    decide +kernel
  have hnodup : (Values.keys ⟨[("r[a][]", ["1", "2"]), ("r[b", ["3"]), ("r[c]", ["4"])]⟩).Nodup :=
    hsorted.nodup_keys
  have hiff := (filter_keeps_values_iff hsorted (by decide) hfilter).1
  exact ⟨hfilter, hiff.mpr ((nodup_keptKeys_iff hnodup).mp (by decide +kernel))⟩

/-- A key that is no path takes the place of a path, whose value is lost. -/
theorem value_of_path_overwritten :
    filter ⟨some "r", none⟩ (Values.ofList [("r[a1]", "1"), ("r[a]1", "2")]) =
        .ok ⟨[("a1", ["2"])]⟩ ∧
      (Values.mk [("a1", ["2"])]).toList.length ≠
        keptCount ⟨some "r", none⟩ (Values.ofList [("r[a1]", "1"), ("r[a]1", "2")]).entries ∧
      keptAs? ⟨some "r", none⟩ "r[a1]" = some "a1" ∧
      keptAs? ⟨some "r", none⟩ "r[a]1" = some "a1" := by
  decide +kernel

end Params

end Allowlist
