import Allowlist.Proofs.Document.Conflict

/-!
# Proofs.Document.Stored — the texts that a tree stores

A placement adds its items to the texts of the tree and takes none away, wherever it puts them
(`Slot.Holds.stored_place`).  So the tree of all keys stores the values of all keys, and the
finished document has these for leaves and nothing else (`Slot.Holds.leaves_toData`).
-/

namespace Allowlist

/-! ### Leaves of a document -/

mutual
/-- The parts of the document that are no lists and no objects, from left to right. -/
def Data.leaves : Data → List Data
  | .list items => itemLeaves items
  | .object members => memberLeaves members
  | leaf => [leaf]

def Data.itemLeaves : List Data → List Data
  | [] => []
  | item :: items => item.leaves ++ itemLeaves items

def Data.memberLeaves : List (String × Data) → List Data
  | [] => []
  | (_, value) :: members => value.leaves ++ memberLeaves members
end

/-- All strings of the document. -/
def Data.strings (data : Data) : List String :=
  data.leaves.filterMap text?

theorem Data.leaves_list (items : List Data) : (Data.list items).leaves = items.flatMap leaves := by
  rw [leaves]
  induction items with
  | nil => rfl
  | cons item items ih => rw [itemLeaves, ih, List.flatMap_cons]

theorem Data.leaves_object (members : List (String × Data)) :
    (Data.object members).leaves = members.flatMap fun member => member.2.leaves := by
  rw [leaves]
  induction members with
  | nil => rfl
  | cons member members ih =>
    obtain ⟨name, value⟩ := member
    rw [memberLeaves, ih, List.flatMap_cons]

theorem Data.leaves_texts (items : List String) :
    items.flatMap (fun item => (Data.text item).leaves) = items.map .text :=
  List.map_eq_flatMap.symm

/-! ### Texts of a tree -/

namespace Slot

mutual
/-- All texts that were placed in the tree. -/
def stored : Slot → List String
  | empty => []
  | leaf items => items
  | object members => membersStored members
  | array elements appended => elementsStored elements ++ appended

def membersStored : List (String × Slot) → List String
  | [] => []
  | (_, slot) :: members => slot.stored ++ membersStored members

def elementsStored : List (Nat × Slot) → List String
  | [] => []
  | (_, slot) :: elements => slot.stored ++ elementsStored elements
end

theorem stored_object (members : List (String × Slot)) :
    (object members).stored = members.flatMap fun member => member.2.stored := by
  rw [stored]
  induction members with
  | nil => rfl
  | cons member members ih =>
    obtain ⟨name, slot⟩ := member
    rw [membersStored, ih, List.flatMap_cons]

theorem stored_array (elements : List (Nat × Slot)) (appended : List String) :
    (array elements appended).stored =
      (elements.flatMap fun element => element.2.stored) ++ appended := by
  have helements : elementsStored elements = elements.flatMap fun element => element.2.stored := by
    induction elements with
    | nil => rfl
    | cons element elements ih =>
      obtain ⟨i, slot⟩ := element
      rw [elementsStored, ih, List.flatMap_cons]
  rw [stored, helements]

/-- A slot that becomes an object stores what it stored. -/
theorem stored_of_members? {slot : Slot} {members : List (String × Slot)}
    (h : slot.members? = some members) : slot.stored = (object members).stored := by
  obtain ⟨rfl, rfl⟩ | rfl := members?_eq_some_iff.mp h
  · rfl
  · rfl

theorem stored_of_elements? {slot : Slot} {elements : List (Nat × Slot)} {appended : List String}
    (h : slot.elements? = some (elements, appended)) :
    slot.stored = (array elements appended).stored := by
  obtain ⟨rfl, rfl, rfl⟩ | rfl := elements?_eq_some_iff.mp h
  · rfl
  · rfl

open scoped List

namespace Holds

variable {slot slot' : Slot} {puts : List Put} {steps : List Step} {items : List String}

/-- A placement adds its items to what is stored. -/
theorem stored_place (h : slot.Holds puts) (hplace : Slot.place items steps slot = some slot') :
    slot'.stored ~ slot.stored ++ items := by
  induction steps generalizing slot slot' puts with
  | nil =>
    cases slot <;> simp only [Slot.place, Option.some.injEq, reduceCtorEq] at hplace
    subst hplace
    exact .refl _
  | cons step rest ih =>
    cases step with
    | append =>
      obtain ⟨elements, texts, helements, rfl⟩ := place_append_eq_some_iff.mp hplace
      rw [stored_of_elements? helements, stored_array, stored_array, List.append_assoc]
    | index position =>
      obtain ⟨elements, texts, element, helements, helement, rfl⟩ :=
        place_index_eq_some_iff.mp hplace
      obtain ⟨hsorted, -, hchildren, -⟩ := h.of_elements? helements
      have hnew := hsorted.flatMap_insert_perm rfl (ih (hchildren position) helement)
      have hswap : items ++ texts ~ texts ++ items := List.perm_append_comm
      rw [stored_of_elements? helements, stored_array, stored_array]
      refine (hnew.append_right texts).trans ?_
      rw [List.append_assoc, List.append_assoc]
      exact hswap.append_left _
    | member name =>
      obtain ⟨members, member, hmembers, hmember, rfl⟩ := place_member_eq_some_iff.mp hplace
      obtain ⟨hsorted, -, hchildren⟩ := h.of_members? hmembers
      have hnew := hsorted.flatMap_insert_perm rfl (ih (hchildren name) hmember)
      rw [stored_of_members? hmembers, stored_object, stored_object]
      exact hnew

/-- A tree with anything in it becomes a document with exactly its texts as leaves. -/
theorem leaves_toData (h : slot.Holds puts) (hne : slot ≠ .empty) :
    slot.toData.leaves = slot.stored.map .text := by
  induction h with
  | empty => exact absurd rfl hne
  | leaf items =>
    by_cases hlength : items.length = 1
    · obtain ⟨item, rfl⟩ := List.length_eq_one_iff.mp hlength
      rfl
    · rw [toData_leaf hlength, Data.texts, Data.leaves_list, List.flatMap_map, Data.leaves_texts]
      rfl
  | @object members puts _ _ hsorted hchild _ ih =>
    rw [toData, Data.leaves_object, membersData_eq_map, List.flatMap_map, stored_object,
      List.map_flatMap]
    refine List.flatMap_congr fun member hmember => ?_
    have hpart := ih member.1
    rw [hsorted.lookup_eq_some_iff.mpr hmember] at hpart
    exact hpart (hchild member hmember)
  | @array elements puts _ _ hsorted hchild _ ih =>
    have helements : (elements.flatMap fun element => element.2.toData.leaves) =
        (elements.flatMap fun element => element.2.stored).map .text := by
      rw [List.map_flatMap]
      refine List.flatMap_congr fun element helement => ?_
      have hpart := ih element.1
      rw [hsorted.lookup_eq_some_iff.mpr helement] at hpart
      exact hpart (hchild element helement)
    rw [toData, Data.leaves_list, elementsData_eq_map, List.flatMap_append, List.flatMap_map,
      List.flatMap_map, Data.leaves_texts, helements, stored_array, List.map_append]

end Holds

end Slot

namespace Document

open scoped List

/-- The tree of all keys stores the values of all keys. -/
theorem stored_slots {entries : List (String × List String)} {root : Slot}
    (h : slots ⟨entries⟩ = .ok root) : root.stored ~ entries.flatMap Prod.snd := by
  induction entries using List.reverseRecOn generalizing root with
  | nil =>
    cases h
    exact .refl _
  | append_singleton entries entry ih =>
    obtain ⟨key, items⟩ := entry
    rw [slots_concat] at h
    obtain ⟨before, hbefore, hadd⟩ := Outcome.bind_eq_ok_iff.mp h
    obtain ⟨steps, -, -, hplace⟩ := addKey_eq_ok_iff_steps.mp hadd
    rw [List.flatMap_append, List.flatMap_singleton]
    exact ((holds_slots hbefore).stored_place hplace).trans ((ih hbefore).append_right items)

end Document

end Allowlist
