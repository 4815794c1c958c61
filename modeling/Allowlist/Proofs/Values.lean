import Allowlist.Values
import Allowlist.Proofs.Keyed
import Mathlib.Data.List.Dedup
import Mathlib.Data.List.Induction

/-!
# Proofs.Values — appending pairs one after the other

Pairs that are appended to no values are grouped by key: each key has the texts that stand behind
it, in their order (`lookup_ofList`), and these texts are all that is kept of the pairs
(`ofList_eq_iff`).  The pairs of values make these values again, in the order of the keys
(`ofList_toList_perm`); if the keys are in order and none is without a value, they make the very
same values (`Grouped.ofList_toList`).
-/

namespace Allowlist.Values

open scoped List

/-- The texts that stand behind the key, in order. -/
def textsOf (pairs : List (String × String)) (key : String) : List String :=
  (pairs.filter (·.1 == key)).map Prod.snd

theorem textsOf_append (pairs more : List (String × String)) (key : String) :
    textsOf (pairs ++ more) key = textsOf pairs key ++ textsOf more key := by
  simp [textsOf]

theorem textsOf_group_self (key : String) (items : List String) :
    textsOf (items.map fun item => (key, item)) key = items := by
  simp [textsOf, List.filter_map, Function.comp_def]

theorem textsOf_group_of_ne {key k : String} (h : k ≠ key) (items : List String) :
    textsOf (items.map fun item => (k, item)) key = [] := by
  simp [textsOf, List.filter_map, Function.comp_def, h]

/-- Of pairs that are kept by their key, a key keeps all texts or none. -/
theorem textsOf_filter (keep : String → Bool) (pairs : List (String × String)) (key : String) :
    textsOf (pairs.filter fun pair => keep pair.1) key =
      if keep key then textsOf pairs key else [] := by
  have hkey : ∀ pair : String × String,
      (pair.1 == key && keep pair.1) = (pair.1 == key && keep key) := by
    intro pair
    by_cases h : pair.1 = key
    · rw [h]
    · rw [beq_false_of_ne h, Bool.false_and, Bool.false_and]
  simp only [textsOf, List.filter_filter, hkey]
  cases keep key <;> simp

theorem mem_textsOf {pairs : List (String × String)} {key value : String} :
    value ∈ textsOf pairs key ↔ (key, value) ∈ pairs := by
  simp [textsOf]

theorem textsOf_eq_nil_iff {pairs : List (String × String)} {key : String} :
    textsOf pairs key = [] ↔ key ∉ pairs.map Prod.fst := by
  simp [List.eq_nil_iff_forall_not_mem, mem_textsOf]

theorem count_textsOf (pairs : List (String × String)) (key value : String) :
    (textsOf pairs key).count value = pairs.count (key, value) := by
  induction pairs with
  | nil => rfl
  | cons pair pairs ih =>
    obtain ⟨k, v⟩ := pair
    have hsplit : textsOf ((k, v) :: pairs) key = textsOf [(k, v)] key ++ textsOf pairs key :=
      textsOf_append [(k, v)] pairs key
    rw [hsplit, List.count_append, ih, List.count_cons, Nat.add_comm]
    by_cases hk : k = key
    · simp [textsOf, hk, List.count_cons]
    · simp [textsOf, hk]

/-- Pairs are the same up to their order exactly when those of every key are. -/
theorem perm_iff_textsOf_perm {pairs more : List (String × String)} :
    pairs ~ more ↔ ∀ key, textsOf pairs key ~ textsOf more key := by
  simp only [List.perm_iff_count, count_textsOf, Prod.forall]

/-- Neighbours with different keys may change places. -/
theorem textsOf_swap {a b : String × String} (h : a.1 ≠ b.1) (front back : List (String × String))
    (key : String) :
    textsOf (front ++ a :: b :: back) key = textsOf (front ++ b :: a :: back) key := by
  have hpair : textsOf [a, b] key = textsOf [b, a] key := by
    by_cases ha : a.1 = key
    · have hb : b.1 ≠ key := fun hb => h (ha.trans hb.symm)
      simp [textsOf, ha, hb]
    · simp [textsOf, List.filter_cons, ha]
  calc textsOf (front ++ ([a, b] ++ back)) key
    _ = textsOf front key ++ (textsOf [a, b] key ++ textsOf back key) := by
      rw [textsOf_append, textsOf_append]
    _ = textsOf front key ++ (textsOf [b, a] key ++ textsOf back key) := by rw [hpair]
    _ = textsOf (front ++ ([b, a] ++ back)) key := by rw [textsOf_append, textsOf_append]

/-! ### Pairs -/

theorem ofList_concat (pairs : List (String × String)) (key value : String) :
    ofList (pairs ++ [(key, value)]) = (ofList pairs).append key value := by
  simp [ofList]

theorem sorted_ofList (pairs : List (String × String)) : Keyed.Sorted (ofList pairs).entries := by
  induction pairs using List.reverseRecOn with
  | nil => exact Keyed.sorted_nil
  | append_singleton pairs pair ih =>
    rw [ofList_concat, append]
    exact ih.insert _ _

/-- A key has the texts that stand behind it, and is absent if there are none. -/
theorem lookup_ofList (pairs : List (String × String)) (key : String) :
    (ofList pairs).entries.lookup key =
      if textsOf pairs key = [] then none else some (textsOf pairs key) := by
  induction pairs using List.reverseRecOn with
  | nil => rfl
  | append_singleton pairs pair ih =>
    obtain ⟨k, value⟩ := pair
    rw [ofList_concat, append, textsOf_append]
    by_cases hk : k = key
    · subst hk
      have hall : (ofList pairs).getAll k = textsOf pairs k := by
        rw [getAll, ih]
        split_ifs with hnil
        · rw [Option.getD_none, hnil]
        · rw [Option.getD_some]
      have hnew : textsOf [(k, value)] k = [value] := textsOf_group_self k [value]
      rw [Keyed.lookup_insert_self, hall, hnew, if_neg (by simp)]
    · have hnew : textsOf [(k, value)] key = [] := textsOf_group_of_ne hk [value]
      rw [Keyed.lookup_insert_of_ne (Ne.symm hk), ih, hnew, List.append_nil]

theorem mem_entries_ofList {pairs : List (String × String)} {key : String} {items : List String} :
    (key, items) ∈ (ofList pairs).entries ↔ items ≠ [] ∧ textsOf pairs key = items := by
  rw [← (sorted_ofList pairs).lookup_eq_some_iff, lookup_ofList]
  split_ifs with hnil
  · exact iff_of_false nofun fun h => h.1 (h.2.symm.trans hnil)
  · rw [Option.some.injEq]
    exact ⟨fun h => ⟨h ▸ hnil, h⟩, And.right⟩

theorem getAll_ofList (pairs : List (String × String)) (key : String) :
    (ofList pairs).getAll key = textsOf pairs key := by
  rw [getAll, lookup_ofList]
  split_ifs with hnil
  · exact hnil.symm
  · rfl

/-- Pairs make the same values exactly when each key has the same texts behind it. -/
theorem ofList_eq_iff {pairs more : List (String × String)} :
    ofList pairs = ofList more ↔ ∀ key, textsOf pairs key = textsOf more key := by
  constructor
  · intro h key
    rw [← getAll_ofList, h, getAll_ofList]
  · intro h
    have hlookup : ∀ key, (ofList pairs).entries.lookup key = (ofList more).entries.lookup key :=
      fun key => by rw [lookup_ofList, lookup_ofList, h]
    exact congrArg Values.mk ((sorted_ofList pairs).ext_lookup (sorted_ofList more) hlookup)

/-! ### Groups -/

theorem textsOf_toList_of_notMem {values : Values} {key : String} (h : key ∉ values.keys) :
    textsOf values.toList key = [] := by
  obtain ⟨groups⟩ := values
  induction groups with
  | nil => rfl
  | cons group groups ih =>
    obtain ⟨hne, hrest⟩ := not_or.mp (List.mem_cons.not.mp h)
    rw [toList, List.flatMap_cons, textsOf_append, textsOf_group_of_ne (Ne.symm hne)]
    exact ih hrest

theorem textsOf_toList_of_mem {values : Values} (h : values.keys.Nodup) {key : String}
    {items : List String} (hmem : (key, items) ∈ values.entries) :
    textsOf values.toList key = items := by
  obtain ⟨groups⟩ := values
  induction groups with
  | nil => cases hmem
  | cons group groups ih =>
    obtain ⟨hnew, hrest⟩ := List.nodup_cons.mp h
    rw [toList, List.flatMap_cons, textsOf_append]
    rcases List.mem_cons.mp hmem with rfl | hmem
    · have hothers : textsOf (toList ⟨groups⟩) key = [] := textsOf_toList_of_notMem hnew
      rw [textsOf_group_self]
      exact (congrArg (items ++ ·) hothers).trans (List.append_nil items)
    · have hne : group.1 ≠ key := fun he => hnew (he ▸ List.mem_map_of_mem hmem)
      rw [textsOf_group_of_ne hne]
      exact ih hrest hmem

/-- Different keys get their texts back, in key order, if each has any. -/
theorem ofList_toList_perm {values : Values} (hkeys : values.keys.Nodup)
    (hne : ∀ entry ∈ values.entries, entry.2 ≠ []) :
    (ofList values.toList).entries ~ values.entries := by
  have hentries : (ofList values.toList).entries.Nodup :=
    (sorted_ofList _).nodup_keys.of_map _
  rw [List.perm_ext_iff_of_nodup hentries (hkeys.of_map _)]
  rintro ⟨key, items⟩
  rw [mem_entries_ofList]
  constructor
  · rintro ⟨hitems, rfl⟩
    by_cases hkey : key ∈ values.keys
    · obtain ⟨⟨_, items⟩, hmem, rfl⟩ := List.mem_map.mp hkey
      rw [textsOf_toList_of_mem hkeys hmem]
      exact hmem
    · exact absurd (textsOf_toList_of_notMem hkey) hitems
  · exact fun hmem => ⟨hne _ hmem, textsOf_toList_of_mem hkeys hmem⟩

/-! ### Grouped values -/

/-- Each key stands once, in the order of the keys, and none without a value. -/
structure Grouped (values : Values) : Prop where
  sorted : Keyed.Sorted values.entries
  filled : ∀ entry ∈ values.entries, entry.2 ≠ []

theorem lookup_eq_none_iff {values : Values} {key : String} :
    values.entries.lookup key = none ↔ key ∉ values.keys := by
  rw [List.lookup_eq_none_iff, keys, List.mem_map]
  simp only [bne_iff_ne, ne_eq, not_exists, not_and]
  exact forall₂_congr fun _ _ => not_congr eq_comm

theorem contains_eq_true_iff {values : Values} {key : String} :
    values.contains key = true ↔ key ∈ values.keys := by
  rw [contains, Option.isSome_iff_ne_none, ne_eq, lookup_eq_none_iff, not_not]

theorem getAll_eq_nil_of_notMem {values : Values} {key : String} (h : key ∉ values.keys) :
    values.getAll key = [] := by
  rw [getAll, lookup_eq_none_iff.mpr h, Option.getD_none]

theorem get?_eq_head? (values : Values) (key : String) :
    values.get? key = (values.getAll key).head? := by
  unfold get? getAll
  cases values.entries.lookup key <;> rfl

namespace Grouped

variable {values others : Values} {key : String}

protected theorem empty : Grouped empty := ⟨Keyed.sorted_nil, nofun⟩

/-- One more value keeps values grouped. -/
protected theorem append (h : values.Grouped) (key value : String) :
    (values.append key value).Grouped := by
  refine ⟨h.sorted.insert _ _, fun entry hentry => ?_⟩
  rcases Keyed.eq_or_mem_of_mem_insert hentry with rfl | hentry
  · simp
  · exact h.filled entry hentry

protected theorem ofList (pairs : List (String × String)) : (ofList pairs).Grouped :=
  ⟨sorted_ofList pairs, fun _ hentry => (mem_entries_ofList.mp hentry).1⟩

/-- The keys strictly increase. -/
theorem pairwise_keys (h : values.Grouped) : values.keys.Pairwise (· < ·) :=
  List.pairwise_map.mpr h.sorted

theorem nodup_keys (h : values.Grouped) : values.keys.Nodup := h.sorted.nodup_keys

theorem getAll_of_mem (h : values.Grouped) {items : List String}
    (hmem : (key, items) ∈ values.entries) : values.getAll key = items := by
  rw [getAll, h.sorted.lookup_eq_some_iff.mpr hmem, Option.getD_some]

/-- A key has no values exactly when it is absent. -/
theorem getAll_eq_nil_iff (h : values.Grouped) : values.getAll key = [] ↔ key ∉ values.keys := by
  refine ⟨fun hnil hkey => ?_, getAll_eq_nil_of_notMem⟩
  obtain ⟨⟨_, items⟩, hmem, rfl⟩ := List.mem_map.mp hkey
  exact h.filled _ hmem ((h.getAll_of_mem hmem).symm.trans hnil)

/-- A key that is present has a first value. -/
theorem isSome_get?_iff (h : values.Grouped) :
    (values.get? key).isSome = true ↔ values.contains key = true := by
  rw [get?_eq_head?, Option.isSome_iff_ne_none, ne_eq, List.head?_eq_none_iff,
    h.getAll_eq_nil_iff, not_not, contains_eq_true_iff]

theorem textsOf_toList (h : values.Grouped) (key : String) :
    textsOf values.toList key = values.getAll key := by
  by_cases hkey : key ∈ values.keys
  · obtain ⟨⟨_, items⟩, hmem, rfl⟩ := List.mem_map.mp hkey
    rw [textsOf_toList_of_mem h.nodup_keys hmem, h.getAll_of_mem hmem]
  · rw [textsOf_toList_of_notMem hkey, getAll_eq_nil_of_notMem hkey]

/-- The pairs stand in the order of their keys, those of one key in a row. -/
theorem pairwise_toList (h : values.Grouped) : values.toList.Pairwise fun a b => a.1 ≤ b.1 := by
  rw [toList, List.pairwise_flatMap]
  refine ⟨fun entry _ => ?_, h.sorted.imp fun {a b} hlt x hx y hy => ?_⟩
  · exact List.pairwise_map.mpr (List.pairwise_of_forall fun _ _ => Std.le_refl _)
  · obtain ⟨_, -, rfl⟩ := List.mem_map.mp hx
    obtain ⟨_, -, rfl⟩ := List.mem_map.mp hy
    exact Std.le_of_lt hlt

/-- The pairs of grouped values make these values again. -/
theorem ofList_toList (h : values.Grouped) : ofList values.toList = values := by
  have hperm := ofList_toList_perm h.nodup_keys h.filled
  exact congrArg Values.mk ((sorted_ofList _).eq_of_mem_iff h.sorted fun _ => hperm.mem_iff)

end Grouped

/-- The keys are those of the pairs, each once. -/
theorem keys_ofList_perm (pairs : List (String × String)) :
    (ofList pairs).keys ~ (pairs.map Prod.fst).dedup := by
  have hgrouped := Grouped.ofList pairs
  rw [List.perm_ext_iff_of_nodup hgrouped.nodup_keys (List.nodup_dedup _)]
  intro key
  rw [List.mem_dedup, ← not_iff_not, ← hgrouped.getAll_eq_nil_iff, getAll_ofList,
    textsOf_eq_nil_iff]

end Allowlist.Values
