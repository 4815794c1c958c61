import Allowlist.Pairs
import Allowlist.Proofs.Cut
import Allowlist.Proofs.Outcome
import Allowlist.Proofs.Values

/-!
# Proofs.Pairs — pairs written and read again

A pair is cut at its first equals sign (`split?_eq_some_iff`), so a key that holds none is read back
whatever its value is.  The lines of values whose keys hold none are such pairs: both readers give
these values again (`form_lines`, `ofArguments_eq_ok_iff`), and lists of lines that are equal up to
their order are values that are equal up to the order of the values of a key
(`lines_perm_iff_alike`).
-/

namespace Allowlist

open scoped List

namespace Pairs

/-- A pair as it is written. -/
def spell (pair : String × String) : String := pair.1 ++ "=" ++ pair.2

/-- What a form reads in a text: without an equals sign it is a key alone. -/
def read (text : String) : String × String := (split? text).getD (text, "")

theorem toList_spell (pair : String × String) :
    (spell pair).toList = pair.1.toList ++ '=' :: pair.2.toList := by
  simp [spell]

theorem equals_mem_spell (pair : String × String) : '=' ∈ (spell pair).toList := by
  simp [toList_spell]

/-- A text is not cut where it holds no equals sign. -/
theorem forall_uncut_iff {cs : List Char} :
    (∀ c ∈ cs, (if c = '=' then some () else none) = none) ↔ '=' ∉ cs := by
  constructor
  · exact fun h hmem => by simpa using h _ hmem
  · intro h c hc
    rw [if_neg]
    rintro rfl
    exact h hc

/-- The key of a pair ends where the first equals sign stands. -/
theorem split?_eq_some_iff {text key value : String} :
    split? text = some (key, value) ↔ text = spell (key, value) ∧ '=' ∉ key.toList := by
  unfold split?
  constructor
  · intro h
    obtain ⟨⟨front, _, back⟩, hcut, he⟩ := Option.map_eq_some_iff.mp h
    obtain ⟨rfl, rfl⟩ := Prod.mk.inj he
    obtain ⟨c, htext, hc, hfront⟩ := Cut.eq_of_first? hcut
    have hequals : c = '=' := by simpa using hc
    refine ⟨String.toList_injective ?_, ?_⟩
    · simp [toList_spell, htext, hequals]
    · rw [String.toList_ofList]
      exact forall_uncut_iff.mp hfront
  · rintro ⟨rfl, hkey⟩
    rw [toList_spell, Cut.first?_append_cons (forall_uncut_iff.mpr hkey) (if_pos rfl)]
    simp

theorem split?_eq_none_iff {text : String} : split? text = none ↔ '=' ∉ text.toList := by
  unfold split?
  rw [Option.map_eq_none_iff, Cut.first?_eq_none_iff, forall_uncut_iff]

/-! ### Reading -/

theorem split?_eq_some_read {text : String} (h : '=' ∈ text.toList) :
    split? text = some (read text) := by
  cases hs : split? text with
  | none => exact absurd h (split?_eq_none_iff.mp hs)
  | some pair => rw [read, hs, Option.getD_some]

theorem spell_read {text : String} (h : '=' ∈ text.toList) : spell (read text) = text :=
  (split?_eq_some_iff.mp (split?_eq_some_read h)).1.symm

theorem read_spell {pair : String × String} (h : '=' ∉ pair.1.toList) :
    read (spell pair) = pair := by
  rw [read, split?_eq_some_iff.mpr ⟨rfl, h⟩, Option.getD_some]

/-- A key that is read holds no equals sign. -/
theorem equals_notMem_read (text : String) : '=' ∉ (read text).1.toList := by
  unfold read
  cases hs : split? text with
  | none => exact split?_eq_none_iff.mp hs
  | some pair => exact (split?_eq_some_iff.mp hs).2

theorem form_eq (texts : List String) : form texts = Values.ofList (texts.map read) := rfl

theorem grouped_form (texts : List String) : (form texts).Grouped := Values.Grouped.ofList _

theorem filterMap_split? {texts : List String} (h : ∀ text ∈ texts, '=' ∈ text.toList) :
    texts.filterMap split? = texts.map read := by
  rw [← List.filterMap_eq_map]
  exact List.filterMap_congr fun text htext => split?_eq_some_read (h text htext)

theorem ofArgument_eq_ok_iff {text : String} {pair : String × String} :
    ofArgument text = .ok pair ↔ '=' ∈ text.toList ∧ pair = read text := by
  unfold ofArgument
  by_cases h : '=' ∈ text.toList
  · rw [split?_eq_some_read h]
    simp [h, eq_comm]
  · rw [split?_eq_none_iff.mpr h]
    simp [h]

theorem mapM_ofArgument_eq_ok_iff {texts : List String} {pairs : List (String × String)} :
    texts.mapM ofArgument = .ok pairs ↔
      (∀ text ∈ texts, '=' ∈ text.toList) ∧ pairs = texts.map read := by
  rw [Outcome.mapM_eq_ok_iff]
  induction texts generalizing pairs with
  | nil => simp
  | cons text texts ih =>
    rw [List.forall₂_cons_left_iff, List.forall_mem_cons, List.map_cons]
    constructor
    · rintro ⟨pair, rest, hpair, hrest, rfl⟩
      obtain ⟨hequals, rfl⟩ := ofArgument_eq_ok_iff.mp hpair
      obtain ⟨hall, rfl⟩ := ih.mp hrest
      exact ⟨⟨hequals, hall⟩, rfl⟩
    · rintro ⟨⟨hequals, hall⟩, rfl⟩
      exact ⟨_, _, ofArgument_eq_ok_iff.mpr ⟨hequals, rfl⟩, ih.mpr ⟨hall, rfl⟩, rfl⟩

/-- Arguments are values when all of them are pairs, and then the values of a form. -/
theorem ofArguments_eq_ok_iff {texts : List String} {values : Values} :
    ofArguments texts = .ok values ↔
      (∀ text ∈ texts, '=' ∈ text.toList) ∧ values = form texts := by
  unfold ofArguments
  simp only [Outcome.map_eq_ok_iff, mapM_ofArgument_eq_ok_iff, form_eq]
  constructor
  · rintro ⟨_, ⟨hall, rfl⟩, rfl⟩
    exact ⟨hall, rfl⟩
  · rintro ⟨hall, rfl⟩
    exact ⟨_, ⟨hall, rfl⟩, rfl⟩

end Pairs

namespace Values

open Pairs

/-! ### Lines -/

/-- No key holds an equals sign, as it is with keys that were read from pairs. -/
def Spellable (values : Values) : Prop := ∀ key ∈ values.keys, '=' ∉ key.toList

theorem spellable_form (texts : List String) : (form texts).Spellable := by
  intro key hkey
  have hmem : key ∈ (texts.map read).map Prod.fst :=
    List.mem_dedup.mp ((keys_ofList_perm _).mem_iff.mp hkey)
  simp only [List.map_map, List.mem_map] at hmem
  obtain ⟨text, -, rfl⟩ := hmem
  exact equals_notMem_read text

theorem lines_eq (values : Values) : values.lines = values.toList.map spell := rfl

theorem equals_mem_of_mem_lines {values : Values} {line : String} (h : line ∈ values.lines) :
    '=' ∈ line.toList := by
  rw [lines_eq] at h
  obtain ⟨pair, -, rfl⟩ := List.mem_map.mp h
  exact equals_mem_spell pair

/-- The lines are read as the pairs that they were. -/
theorem map_read_lines {values : Values} (h : values.Spellable) :
    values.lines.map read = values.toList := by
  rw [lines_eq, List.map_map]
  refine (List.map_congr_left fun pair hpair => ?_).trans (List.map_id _)
  obtain ⟨entry, hentry, hitem⟩ := List.mem_flatMap.mp hpair
  obtain ⟨item, -, rfl⟩ := List.mem_map.mp hitem
  exact read_spell (h entry.1 (List.mem_map_of_mem hentry))

/-- Grouped values are read back from their lines. -/
theorem form_lines {values : Values} (h : values.Spellable) (hgrouped : values.Grouped) :
    form values.lines = values := by
  rw [form_eq, map_read_lines h, hgrouped.ofList_toList]

theorem ofArguments_lines {values : Values} (h : values.Spellable) (hgrouped : values.Grouped) :
    ofArguments values.lines = .ok values :=
  ofArguments_eq_ok_iff.mpr ⟨fun _ => equals_mem_of_mem_lines, (form_lines h hgrouped).symm⟩

/-! ### The order of the values of a key -/

/-- Equal up to the order of the values of a key. -/
def Alike (values others : Values) : Prop :=
  values.keys = others.keys ∧ ∀ key, values.getAll key ~ others.getAll key

/-- Grouped values have the same pairs, in some order, exactly when they are alike. -/
theorem Grouped.toList_perm_iff {values others : Values} (h : values.Grouped)
    (h' : others.Grouped) : values.toList ~ others.toList ↔ values.Alike others := by
  rw [perm_iff_textsOf_perm]
  simp only [h.textsOf_toList, h'.textsOf_toList]
  refine ⟨fun hall => ⟨?_, hall⟩, And.right⟩
  have hmem : ∀ key, key ∈ values.keys ↔ key ∈ others.keys := by
    intro key
    rw [← not_iff_not, ← h.getAll_eq_nil_iff, ← h'.getAll_eq_nil_iff]
    exact ⟨fun hnil => (hnil ▸ hall key).nil_eq.symm, fun hnil => (hnil ▸ hall key).eq_nil⟩
  have hperm := (List.perm_ext_iff_of_nodup h.nodup_keys h'.nodup_keys).mpr hmem
  refine hperm.eq_of_pairwise (fun a b _ _ hab hba => ?_) h.pairwise_keys h'.pairwise_keys
  exact absurd (Std.lt_trans hab hba) Std.lt_irrefl

theorem toList_ofList_perm (pairs : List (String × String)) : (ofList pairs).toList ~ pairs := by
  rw [perm_iff_textsOf_perm]
  intro key
  rw [(Grouped.ofList pairs).textsOf_toList, getAll_ofList]

/-- Texts are the lines of values, in some order, exactly when all of them are pairs and what they
say is alike. -/
theorem lines_perm_iff_alike {values : Values} (h : values.Spellable) (hgrouped : values.Grouped)
    {texts : List String} :
    values.lines ~ texts ↔
      (∀ text ∈ texts, '=' ∈ text.toList) ∧ values.Alike (form texts) := by
  rw [← hgrouped.toList_perm_iff (grouped_form texts)]
  have hform : (form texts).toList ~ texts.map read := toList_ofList_perm _
  constructor
  · intro hperm
    refine ⟨fun text htext => equals_mem_of_mem_lines (hperm.mem_iff.mpr htext), ?_⟩
    have hread := hperm.map read
    rw [map_read_lines h] at hread
    exact hread.trans hform.symm
  · rintro ⟨hequals, hperm⟩
    have hspell : texts.map (spell ∘ read) = texts :=
      (List.map_congr_left fun text htext => spell_read (hequals text htext)).trans (List.map_id _)
    have hlines := (hperm.trans hform).map spell
    rwa [List.map_map, hspell] at hlines

end Values

end Allowlist
