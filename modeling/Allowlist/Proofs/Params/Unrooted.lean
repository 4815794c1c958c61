import Allowlist.Proofs.Pairs
import Allowlist.Proofs.Params.Built

/-!
# Proofs.Params.Unrooted — filtering without a root

Without a required root a filter drops entries and changes none (`filter_of_no_root`).  Filtering
values that were collected from pairs is filtering the pairs (`filter_ofList`), so what is kept is
kept again.  With or without a root, a key that is kept has no characters that its source has not,
and filtered values are read back from their lines if the request is (`spellable_filter`).
-/

namespace Allowlist

/-- There are no rules, or they permit the key. -/
def Config.Permits (config : Config) (key : String) : Prop :=
  config.permit = [] ∨ ∃ set, RuleSet.compile config.permit = .ok set ∧ set.permits key = true

namespace Params

/-! ### Without a root -/

/-- A filter without a root allows what its configuration permits. -/
theorem ofConfig_of_no_root {config : Config} {params : Params} (h : config.require = none)
    (hparams : ofConfig config = .ok params) :
    params.require = none ∧ ∀ key, params.allows key = true ↔ config.Permits key := by
  have hconfig : ofConfig config =
      if config.permit.isEmpty then .ok unrestricted else unrestricted.withRules config.permit := by
    rw [ofConfig, h]
    rfl
  rw [hconfig] at hparams
  by_cases hpermit : config.permit = []
  · rw [hpermit, List.isEmpty_nil, if_pos rfl] at hparams
    cases hparams
    exact ⟨rfl, fun key => iff_of_true rfl (.inl hpermit)⟩
  · rw [if_neg (by simpa using hpermit)] at hparams
    obtain ⟨set, hset, hparams⟩ := Outcome.bind_eq_ok_iff.mp hparams
    cases hparams
    rw [Outcome.mapError_eq_ok_iff] at hset
    refine ⟨rfl, fun key => ?_⟩
    simp [allows, Config.Permits, hpermit, hset]

theorem keep_of_no_root {params : Params} (h : params.require = none) (kept : Values)
    (entry : String × List String) :
    params.keep kept entry =
      if params.allows entry.1 then kept.put entry.1 entry.2 else kept := by
  by_cases hallows : params.allows entry.1 = true
  · simp [keep, keptAs?, rerooted?, h, Option.filter_some, hallows]
  · simp [keep, keptAs?, rerooted?, h, Option.filter_some, hallows]

/-- The entries are kept in their order, each at the end of those before it. -/
theorem foldl_keep_of_no_root {params : Params} (h : params.require = none)
    {entries : List (String × List String)} (hsorted : Keyed.Sorted entries) :
    entries.foldl params.keep Values.empty =
      ⟨entries.filter fun entry => params.allows entry.1⟩ := by
  induction entries using List.reverseRecOn with
  | nil => rfl
  | append_singleton entries entry ih =>
    obtain ⟨hfront, -, hbefore⟩ := List.pairwise_append.mp hsorted
    rw [foldl_keep_concat, ih hfront, keep_of_no_root h, List.filter_append]
    by_cases hallows : params.allows entry.1 = true
    · have hlast : ∀ e ∈ entries.filter fun e => params.allows e.1, e.1 < entry.1 := fun e he =>
        hbefore e (List.mem_of_mem_filter he) entry (List.mem_singleton_self entry)
      have hentry : [entry].filter (fun e => params.allows e.1) = [entry] := by simp [hallows]
      rw [if_pos hallows, Values.put, Keyed.insert_eq_append hlast, hentry]
    · have hentry : [entry].filter (fun e => params.allows e.1) = [] := by simp [hallows]
      rw [if_neg hallows, hentry, List.append_nil]

theorem filter_of_no_root {params : Params} (h : params.require = none) {values : Values}
    (hsorted : Keyed.Sorted values.entries) :
    params.filter values = .ok ⟨values.entries.filter fun entry => params.allows entry.1⟩ := by
  refine filter_eq_ok_iff.mpr ⟨fun root hroot => ?_, (foldl_keep_of_no_root h hsorted).symm⟩
  cases h.symm.trans hroot

/-! ### Pairs -/

/-- Filtering what was collected from pairs is filtering the pairs. -/
theorem filter_ofList {params : Params} (h : params.require = none)
    (pairs : List (String × String)) :
    params.filter (Values.ofList pairs) =
      .ok (Values.ofList (pairs.filter fun pair => params.allows pair.1)) := by
  have hsorted := Values.sorted_ofList pairs
  have hkept : (Values.ofList pairs).entries.filter (fun entry => params.allows entry.1) =
      (Values.ofList (pairs.filter fun pair => params.allows pair.1)).entries := by
    refine Keyed.Sorted.eq_of_mem_iff (hsorted.filter _) (Values.sorted_ofList _) fun entry => ?_
    obtain ⟨key, items⟩ := entry
    rw [List.mem_filter, Values.mem_entries_ofList, Values.mem_entries_ofList,
      Values.textsOf_filter]
    by_cases hallows : params.allows key = true
    · simp [hallows]
    · simp only [hallows, Bool.false_eq_true, and_false, if_false, false_iff, not_and]
      exact fun hne hnil => hne hnil.symm
  rw [filter_of_no_root h hsorted, hkept]

/-! ### Keys -/

theorem mem_of_mem_keptAs? {params : Params} {source key : String}
    (h : params.keptAs? source = some key) {c : Char} (hc : c ∈ key.toList) :
    c ∈ source.toList := by
  have hrerooted := (keptAs?_eq_some_iff.mp h).1
  unfold rerooted? at hrerooted
  split at hrerooted
  · obtain ⟨rest, hrest, rfl⟩ := reroot?_eq_some_iff.mp hrerooted
    rw [String.toList_ofList] at hc
    rw [hrest]
    exact List.mem_append_right _ (List.mem_cons_of_mem _ (List.mem_of_mem_erase hc))
  · cases hrerooted
    exact hc

theorem spellable_filter {params : Params} {values filtered : Values} (hvalues : values.Spellable)
    (h : params.filter values = .ok filtered) : filtered.Spellable := by
  intro key hkey hequals
  obtain ⟨⟨_, items⟩, hmem, rfl⟩ := List.mem_map.mp hkey
  obtain ⟨source, hsource, hkept⟩ := exists_source_of_filter h hmem
  exact hvalues source (List.mem_map_of_mem hsource) (mem_of_mem_keptAs? hkept hequals)

/-! ### Forms -/

/-- Of a form, a key keeps all its values or none, and what is kept stays when it is filtered. -/
theorem exists_filter_form_of_no_root {params : Params} (h : params.require = none)
    (texts : List String) :
    ∃ kept, params.filter (Pairs.form texts) = .ok kept ∧ params.filter kept = .ok kept ∧
      kept.Grouped ∧ kept.Spellable ∧
      ∀ key, kept.getAll key =
        if params.allows key then Values.textsOf (texts.map Pairs.read) key else [] := by
  have hkept := filter_ofList h (texts.map Pairs.read)
  refine ⟨_, hkept, ?_, .ofList _, spellable_filter (Values.spellable_form texts) hkept,
    fun key => ?_⟩
  · rw [filter_ofList h, List.filter_filter]
    simp only [Bool.and_self]
  · rw [Values.getAll_ofList, Values.textsOf_filter]

end Params

end Allowlist
