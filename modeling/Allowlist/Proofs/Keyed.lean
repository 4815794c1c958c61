import Allowlist.Keyed
import Mathlib.Data.List.Induction
import Mathlib.Data.List.Nodup
import Mathlib.Tactic.SplitIfs

/-!
# Proofs.Keyed — look-ups in keyed lists

`insert` changes one look-up and no other, in any list (`lookup_insert_of_ne`).  In a sorted list
the look-ups are the entries (`Sorted.lookup_eq_some_iff`), and `insert` keeps a list sorted.
`ofList` sorts pairs with different keys and drops none (`ofList_perm`).
-/

set_option linter.unusedSectionVars false

namespace Allowlist.Keyed

open scoped List

variable {κ α : Type} [LT κ] [DecidableLT κ] [LE κ] [Std.IsLinearOrder κ] [Std.LawfulOrderLT κ]

/-! ### Entries -/

instance (entries : List (κ × α)) : Decidable (Sorted entries) :=
  inferInstanceAs (Decidable (entries.Pairwise fun a b => a.1 < b.1))

/-- An entry of the list after an insertion is the new one or an old one. -/
theorem eq_or_mem_of_mem_insert {key : κ} {value : α} {entries : List (κ × α)} {m : κ × α}
    (h : m ∈ insert key value entries) : m = (key, value) ∨ m ∈ entries := by
  induction entries with
  | nil => simpa [insert] using h
  | cons e rest ih =>
    obtain ⟨k, v⟩ := e
    rw [insert] at h
    split_ifs at h with h1 h2
    · simpa using h
    · rcases List.mem_cons.mp h with rfl | h
      · exact .inr (by simp)
      · rcases ih h with h | h
        · exact .inl h
        · exact .inr (List.mem_cons_of_mem _ h)
    · rcases List.mem_cons.mp h with rfl | h
      · exact .inl rfl
      · exact .inr (List.mem_cons_of_mem _ h)

@[simp] theorem sorted_nil : Sorted ([] : List (κ × α)) := List.Pairwise.nil

theorem Sorted.tail {e : κ × α} {rest : List (κ × α)} (h : Sorted (e :: rest)) : Sorted rest :=
  (List.pairwise_cons.mp h).2

/-- The first key of a sorted list is the key of no further entry. -/
theorem Sorted.ne_of_mem_tail {e m : κ × α} {rest : List (κ × α)} (h : Sorted (e :: rest))
    (hm : m ∈ rest) : m.1 ≠ e.1 := by
  intro he
  have hlt := (List.pairwise_cons.mp h).1 m hm
  rw [he] at hlt
  exact Std.lt_irrefl hlt

/-- A sorted list holds each key once. -/
theorem Sorted.nodup_keys {entries : List (κ × α)} (h : Sorted entries) :
    (entries.map Prod.fst).Nodup := by
  rw [List.Nodup, List.pairwise_map]
  refine h.imp fun {a b} hlt (he : a.1 = b.1) => ?_
  rw [he] at hlt
  exact Std.lt_irrefl hlt

theorem Sorted.insert {entries : List (κ × α)} (h : Sorted entries) (key : κ) (value : α) :
    Sorted (insert key value entries) := by
  induction entries with
  | nil => simp [Keyed.insert, Sorted]
  | cons e rest ih =>
    obtain ⟨k, v⟩ := e
    obtain ⟨hk, hrest⟩ := List.pairwise_cons.mp h
    rw [Keyed.insert]
    split_ifs with h1 h2
    · refine List.pairwise_cons.mpr ⟨fun m hm => ?_, h⟩
      rcases List.mem_cons.mp hm with rfl | hm
      · exact h1
      · exact Std.lt_trans h1 (hk m hm)
    · refine List.pairwise_cons.mpr ⟨fun m hm => ?_, ih hrest⟩
      rcases eq_or_mem_of_mem_insert hm with rfl | hm
      · exact h2
      · exact hk m hm
    · have he : key = k := (Std.lt_trichotomy key k).resolve_left h1 |>.resolve_right h2
      subst he
      exact List.pairwise_cons.mpr ⟨hk, hrest⟩

/-- Sorted lists with the same entries are equal. -/
theorem Sorted.eq_of_mem_iff {entries others : List (κ × α)} (h : Sorted entries)
    (h' : Sorted others) (hmem : ∀ e, e ∈ entries ↔ e ∈ others) : entries = others := by
  have hperm : entries ~ others :=
    (List.perm_ext_iff_of_nodup (h.nodup_keys.of_map _) (h'.nodup_keys.of_map _)).mpr hmem
  refine hperm.eq_of_pairwise (fun a b _ _ hab hba => ?_) h h'
  exact absurd (Std.lt_trans hab hba) Std.lt_irrefl

/-- In a sorted list an insertion drops the entry of the key and no other. -/
theorem Sorted.mem_insert {entries : List (κ × α)} (h : Sorted entries) {key : κ} {value : α}
    {m : κ × α} :
    m ∈ Keyed.insert key value entries ↔ m = (key, value) ∨ m ∈ entries ∧ m.1 ≠ key := by
  induction entries with
  | nil => simp [Keyed.insert]
  | cons e rest ih =>
    obtain ⟨k, v⟩ := e
    obtain ⟨hk, hrest⟩ := List.pairwise_cons.mp h
    rw [Keyed.insert]
    split_ifs with h1 h2
    · -- every key of the list is beyond the new one
      have hne : ∀ m ∈ (k, v) :: rest, m.1 ≠ key := by
        intro m hm he
        rcases List.mem_cons.mp hm with rfl | hm
        · exact Std.lt_irrefl (he ▸ h1)
        · exact Std.lt_irrefl (he ▸ Std.lt_trans h1 (hk m hm))
      rw [List.mem_cons]
      exact or_congr_right ⟨fun hm => ⟨hm, hne m hm⟩, And.left⟩
    · have hne : k ≠ key := fun he => Std.lt_irrefl (he ▸ h2)
      rw [List.mem_cons, List.mem_cons, ih hrest]
      constructor
      · rintro (rfl | hm | hm)
        · exact .inr ⟨.inl rfl, hne⟩
        · exact .inl hm
        · exact .inr ⟨.inr hm.1, hm.2⟩
      · rintro (hm | ⟨rfl | hm, hn⟩)
        · exact .inr (.inl hm)
        · exact .inl rfl
        · exact .inr (.inr ⟨hm, hn⟩)
    · have he : key = k := (Std.lt_trichotomy key k).resolve_left h1 |>.resolve_right h2
      subst he
      rw [List.mem_cons, List.mem_cons]
      constructor
      · rintro (rfl | hm)
        · exact .inl rfl
        · exact .inr ⟨.inr hm, h.ne_of_mem_tail hm⟩
      · rintro (hm | ⟨rfl | hm, hn⟩)
        · exact .inl hm
        · exact absurd rfl hn
        · exact .inr hm

/-- A key beyond all others is inserted at the end. -/
theorem insert_eq_append {entries : List (κ × α)} {key : κ} (h : ∀ e ∈ entries, e.1 < key)
    (value : α) : insert key value entries = entries ++ [(key, value)] := by
  induction entries with
  | nil => rfl
  | cons e rest ih =>
    obtain ⟨k, v⟩ := e
    obtain ⟨hk, hrest⟩ := List.forall_mem_cons.mp h
    rw [insert, if_neg (fun hlt => Std.lt_irrefl (Std.lt_trans hlt hk)), if_pos hk, ih hrest]
    rfl

/-! ### Lists of pairs -/

theorem ofList_concat (pairs : List (κ × α)) (pair : κ × α) :
    ofList (pairs ++ [pair]) = insert pair.1 pair.2 (ofList pairs) := by
  simp [ofList]

theorem sorted_ofList (pairs : List (κ × α)) : Sorted (ofList pairs) := by
  induction pairs using List.reverseRecOn with
  | nil => exact sorted_nil
  | append_singleton pairs pair ih =>
    rw [ofList_concat]
    exact ih.insert _ _

/-! ### Look-ups -/

section Lookup

variable [BEq κ] [LawfulBEq κ]

theorem mem_of_lookup {entries : List (κ × α)} {key : κ} {value : α}
    (h : entries.lookup key = some value) : (key, value) ∈ entries := by
  obtain ⟨front, back, rfl, -⟩ := List.lookup_eq_some_iff.mp h
  simp

@[simp] theorem lookup_insert_self (key : κ) (value : α) (entries : List (κ × α)) :
    (insert key value entries).lookup key = some value := by
  induction entries with
  | nil => simp [insert]
  | cons e rest ih =>
    obtain ⟨k, v⟩ := e
    rw [insert]
    split_ifs with h1 h2
    · simp
    · have hne : key ≠ k := fun he => Std.lt_irrefl (he ▸ h2)
      rw [List.lookup_cons, beq_false_of_ne hne]
      exact ih
    · simp

/-- An insertion changes the look-up of its key and no other. -/
theorem lookup_insert_of_ne {key k : κ} (hne : k ≠ key) (value : α) (entries : List (κ × α)) :
    (insert key value entries).lookup k = entries.lookup k := by
  induction entries with
  | nil => simpa [insert] using hne
  | cons e rest ih =>
    obtain ⟨k', v⟩ := e
    rw [insert]
    split_ifs with h1 h2
    · rw [List.lookup_cons, beq_false_of_ne hne]
    · rw [List.lookup_cons, List.lookup_cons, ih]
    · have he : key = k' := (Std.lt_trichotomy key k').resolve_left h1 |>.resolve_right h2
      subst he
      rw [List.lookup_cons, List.lookup_cons, beq_false_of_ne hne]

/-- Behind the first entry of a sorted list its key is not found again. -/
theorem Sorted.lookup_tail_eq_none {key : κ} {value : α} {rest : List (κ × α)}
    (h : Sorted ((key, value) :: rest)) : rest.lookup key = none := by
  rw [List.lookup_eq_none_iff]
  exact fun m hm => bne_iff_ne.mpr (h.ne_of_mem_tail hm).symm

/-- The look-ups of a list that holds each key once are its entries. -/
theorem lookup_eq_some_iff {entries : List (κ × α)} (h : (entries.map Prod.fst).Nodup) {key : κ}
    {value : α} : entries.lookup key = some value ↔ (key, value) ∈ entries := by
  refine ⟨mem_of_lookup, fun hm => ?_⟩
  induction entries with
  | nil => simp at hm
  | cons e rest ih =>
    obtain ⟨hfirst, hrest⟩ := List.nodup_cons.mp h
    rcases List.mem_cons.mp hm with rfl | hm
    · simp
    · have hne : key ≠ e.1 := fun he => hfirst (he ▸ List.mem_map_of_mem hm)
      rw [List.lookup_cons, beq_false_of_ne hne]
      exact ih hrest hm

/-- The look-ups of a sorted list are its entries. -/
theorem Sorted.lookup_eq_some_iff {entries : List (κ × α)} (h : Sorted entries) {key : κ}
    {value : α} : entries.lookup key = some value ↔ (key, value) ∈ entries :=
  Keyed.lookup_eq_some_iff h.nodup_keys

/-- In whatever order entries with different keys are listed, the look-ups are the same. -/
theorem lookup_eq_of_perm {entries others : List (κ × α)} (h : (entries.map Prod.fst).Nodup)
    (hperm : others ~ entries) (key : κ) : others.lookup key = entries.lookup key := by
  have hothers : (others.map Prod.fst).Nodup := (hperm.map Prod.fst).nodup_iff.mpr h
  refine Option.ext fun value => ?_
  rw [Keyed.lookup_eq_some_iff hothers, Keyed.lookup_eq_some_iff h, hperm.mem_iff]

/-- Sorted lists with the same look-ups are equal. -/
theorem Sorted.ext_lookup {entries others : List (κ × α)} (h : Sorted entries)
    (h' : Sorted others) (hlookup : ∀ key, entries.lookup key = others.lookup key) :
    entries = others := by
  refine h.eq_of_mem_iff h' fun e => ?_
  obtain ⟨key, value⟩ := e
  rw [← h.lookup_eq_some_iff, ← h'.lookup_eq_some_iff, hlookup]

/-! ### Permutations -/

/-- The entries are the one of the key and those of the other keys. -/
theorem Sorted.perm_of_lookup {entries : List (κ × α)} (h : Sorted entries) {key : κ} {value : α}
    (hl : entries.lookup key = some value) :
    entries ~ (key, value) :: entries.filter (·.1 != key) := by
  have hnodup : entries.Nodup := h.nodup_keys.of_map _
  have hnew : ((key, value) :: entries.filter (·.1 != key)).Nodup := by
    rw [List.nodup_cons]
    exact ⟨by simp, hnodup.filter _⟩
  rw [List.perm_ext_iff_of_nodup hnodup hnew]
  rintro ⟨k, v⟩
  rw [List.mem_cons, List.mem_filter, bne_iff_ne, Prod.mk.injEq]
  constructor
  · intro hm
    by_cases hk : k = key
    · subst hk
      have hv := (h.lookup_eq_some_iff.mpr hm).symm.trans hl
      exact .inl ⟨rfl, Option.some.inj hv⟩
    · exact .inr ⟨hm, hk⟩
  · rintro (⟨rfl, rfl⟩ | ⟨hm, -⟩)
    · exact mem_of_lookup hl
    · exact hm

/-- An insertion puts the new entry in the place of the one of its key. -/
theorem Sorted.insert_perm {entries : List (κ × α)} (h : Sorted entries) (key : κ) (value : α) :
    Keyed.insert key value entries ~ (key, value) :: entries.filter (·.1 != key) := by
  have hnew : ((key, value) :: entries.filter (·.1 != key)).Nodup := by
    rw [List.nodup_cons]
    exact ⟨by simp, (h.nodup_keys.of_map _).filter _⟩
  rw [List.perm_ext_iff_of_nodup ((h.insert key value).nodup_keys.of_map _) hnew]
  intro m
  rw [h.mem_insert, List.mem_cons, List.mem_filter, bne_iff_ne]

/-- Pairs with different keys are put in order, and none is dropped. -/
theorem ofList_perm {pairs : List (κ × α)} (h : (pairs.map Prod.fst).Nodup) :
    ofList pairs ~ pairs := by
  induction pairs using List.reverseRecOn with
  | nil => exact .nil
  | append_singleton pairs pair ih =>
    rw [List.map_append, List.map_singleton, List.nodup_append] at h
    obtain ⟨hpairs, -, hnew⟩ := h
    have hothers : (ofList pairs).filter (·.1 != pair.1) = ofList pairs := by
      rw [List.filter_eq_self]
      intro e he
      have hkey : e.1 ∈ pairs.map Prod.fst := List.mem_map_of_mem ((ih hpairs).mem_iff.mp he)
      exact bne_iff_ne.mpr (hnew _ hkey _ (List.mem_singleton_self _))
    have hinsert := (sorted_ofList pairs).insert_perm pair.1 pair.2
    rw [hothers] at hinsert
    rw [ofList_concat]
    exact hinsert.trans (((ih hpairs).cons pair).trans (List.perm_append_singleton _ _).symm)

/-- Where an entry grows by some items, all that can be read from the entries grows by them. -/
theorem Sorted.flatMap_insert_perm {β : Type} {entries : List (κ × α)} (h : Sorted entries)
    {f : α → List β} {key : κ} {value default : α} {items : List β} (hdefault : f default = [])
    (hvalue : f value ~ f ((entries.lookup key).getD default) ++ items) :
    (Keyed.insert key value entries).flatMap (fun e => f e.2) ~
      (entries.flatMap fun e => f e.2) ++ items := by
  have hinsert := (h.insert_perm key value).flatMap_right fun e => f e.2
  have hentries : entries.flatMap (fun e => f e.2) ~
      f ((entries.lookup key).getD default) ++
        (entries.filter (·.1 != key)).flatMap fun e => f e.2 := by
    cases hl : entries.lookup key with
    | none =>
      have hothers : entries.filter (·.1 != key) = entries := by
        rw [List.filter_eq_self]
        intro e he
        have hne := List.lookup_eq_none_iff.mp hl e he
        exact bne_iff_ne.mpr (bne_iff_ne.mp hne).symm
      rw [hothers, Option.getD_none, hdefault, List.nil_append]
    | some old => exact (h.perm_of_lookup hl).flatMap_right fun e => f e.2
  generalize entries.filter (·.1 != key) = others at hinsert hentries
  generalize (entries.lookup key).getD default = old at hvalue hentries
  have hswap : items ++ others.flatMap (fun e => f e.2) ~
      (others.flatMap fun e => f e.2) ++ items := List.perm_append_comm
  calc (Keyed.insert key value entries).flatMap (fun e => f e.2)
    _ ~ f value ++ others.flatMap fun e => f e.2 := hinsert
    _ ~ (f old ++ items) ++ others.flatMap fun e => f e.2 := hvalue.append_right _
    _ = f old ++ (items ++ others.flatMap fun e => f e.2) := List.append_assoc _ _ _
    _ ~ f old ++ ((others.flatMap fun e => f e.2) ++ items) := hswap.append_left _
    _ = (f old ++ others.flatMap fun e => f e.2) ++ items := (List.append_assoc _ _ _).symm
    _ ~ (entries.flatMap fun e => f e.2) ++ items := hentries.symm.append_right _

end Lookup

end Allowlist.Keyed
