import Allowlist.Params.Basic
import Allowlist.Proofs.Keyed
import Allowlist.Proofs.RuleSet

/-!
# Proofs.Params.Filter — where filtered values come from

The filter goes through the entries one by one.  An entry of the result is an entry of the request
under the key that its key is kept as (`exists_source_of_filter`), and that key passes the rules.
-/

namespace Allowlist.Params

/-! ### Kept keys -/

theorem keptAs?_eq_some_iff {params : Params} {source key : String} :
    params.keptAs? source = some key ↔
      params.rerooted? source = some key ∧ params.allows key = true := by
  unfold keptAs?
  rw [Option.filter_eq_some_iff]

/-- A key under the root loses the root, the bracket after it and the first closing bracket. -/
theorem reroot?_eq_some_iff {root source key : String} :
    reroot? root source = some key ↔
      ∃ rest, source.toList = root.toList ++ '[' :: rest ∧
        key = String.ofList (rest.erase ']') := by
  unfold reroot?
  constructor
  · intro h
    split at h
    · next rest hstrip =>
      rw [List.isPrefixOf?_eq_some_iff_append_eq] at hstrip
      cases h
      exact ⟨rest, hstrip.symm, rfl⟩
    · cases h
  · rintro ⟨rest, hsource, rfl⟩
    have hstrip : root.toList.isPrefixOf? source.toList = some ('[' :: rest) := by
      rw [List.isPrefixOf?_eq_some_iff_append_eq, hsource]
    simp only [hstrip]

/-- With rules, a key that passes them is a path. -/
theorem exists_hops_of_allows {params : Params} {set : RuleSet} (hrules : params.rules = some set)
    {key : String} (h : params.allows key = true) :
    ∃ hops, Path.tokenize? key = some hops ∧ set.root.accepts hops = true := by
  have hpermits : set.permits key = true := by simpa [allows, hrules] using h
  exact RuleSet.permits_eq_true_iff.mp hpermits

/-! ### The filter -/

/-- One more entry of the request. -/
def keep (params : Params) (kept : Values) (entry : String × List String) : Values :=
  match params.keptAs? entry.1 with
  | some key => kept.put key entry.2
  | none => kept

theorem filter_eq_ok_iff {params : Params} {values filtered : Values} :
    params.filter values = .ok filtered ↔
      (∀ root, params.require = some root → values.keys.any (isUnder root) = true) ∧
        filtered = values.entries.foldl params.keep Values.empty := by
  unfold filter
  cases hrequire : params.require with
  | none => exact ⟨fun h => ⟨nofun, (Except.ok.inj h).symm⟩, fun h => congrArg Except.ok h.2.symm⟩
  | some root =>
    dsimp only
    by_cases hany : values.keys.any (isUnder root) = true
    · rw [if_pos hany]
      constructor
      · intro h
        refine ⟨fun root' he => ?_, (Except.ok.inj h).symm⟩
        cases he
        exact hany
      · intro h
        exact congrArg Except.ok h.2.symm
    · rw [if_neg hany]
      exact iff_of_false nofun fun h => hany (h.1 root rfl)

/-- A filter fails only for a required root that no key is, or lies under. -/
theorem filter_eq_error_iff {params : Params} {values : Values} {error : Error} :
    params.filter values = .error error ↔
      ∃ root, params.require = some root ∧ values.keys.any (isUnder root) = false ∧
        error = .missingRequiredKey root := by
  unfold filter
  constructor
  · intro h
    cases hrequire : params.require with
    | none =>
      rw [hrequire] at h
      cases h
    | some root =>
      rw [hrequire] at h
      dsimp only at h
      split_ifs at h with hany
      exact ⟨root, rfl, Bool.eq_false_iff.mpr hany, (Except.error.inj h).symm⟩
  · rintro ⟨root, hrequire, hany, rfl⟩
    rw [hrequire]
    dsimp only
    rw [hany, if_neg Bool.false_ne_true]

/-- What is kept was kept before, or is the entry under the key that its key is kept as. -/
theorem mem_keep {params : Params} {kept : Values} {entry : String × List String} {key : String}
    {items : List String} (h : (key, items) ∈ (params.keep kept entry).entries) :
    (key, items) ∈ kept.entries ∨ items = entry.2 ∧ params.keptAs? entry.1 = some key := by
  unfold keep at h
  split at h
  · next key' hkept =>
    rcases Keyed.eq_or_mem_of_mem_insert h with he | h
    · cases he
      exact .inr ⟨rfl, hkept⟩
    · exact .inl h
  · exact .inl h

theorem mem_foldl_keep {params : Params} {entries : List (String × List String)} {kept : Values}
    {key : String} {items : List String}
    (h : (key, items) ∈ (entries.foldl params.keep kept).entries) :
    (key, items) ∈ kept.entries ∨
      ∃ source, (source, items) ∈ entries ∧ params.keptAs? source = some key := by
  induction entries generalizing kept with
  | nil => exact .inl h
  | cons entry entries ih =>
    rcases ih h with h | ⟨source, hmem, hkept⟩
    · rcases mem_keep h with h | ⟨rfl, hkept⟩
      · exact .inl h
      · exact .inr ⟨entry.1, List.mem_cons_self, hkept⟩
    · exact .inr ⟨source, List.mem_cons_of_mem _ hmem, hkept⟩

/-- Every entry of the result is an entry of the request under the key that is kept for it. -/
theorem exists_source_of_filter {params : Params} {values filtered : Values}
    (h : params.filter values = .ok filtered) {key : String} {items : List String}
    (hmem : (key, items) ∈ filtered.entries) :
    ∃ source, (source, items) ∈ values.entries ∧ params.keptAs? source = some key := by
  obtain ⟨-, rfl⟩ := filter_eq_ok_iff.mp h
  rcases mem_foldl_keep hmem with hnone | hsource
  · cases hnone
  · exact hsource

end Allowlist.Params
