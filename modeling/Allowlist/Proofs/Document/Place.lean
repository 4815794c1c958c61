import Allowlist.Proofs.Document.Address
import Allowlist.Proofs.Document.Holds
import Mathlib.Data.Nat.Count

/-!
# Proofs.Document.Place — where a placement ends up in the finished document

The finished document closes the gaps between positions, so a position becomes its rank among the
positions that are used at the same array (`Put.resolve`).  Following the resolved steps of a part
of the tree leads to what that part becomes (`Slot.Holds.follow?_resolve`), and every part of the
document that is no single text is reached in this way (`Slot.Holds.follow?_cases`).
-/

namespace Allowlist

/-- The part of a document at the end of the steps. -/
def Data.follow? : List Step → Data → Option Data
  | [], data => some data
  | .member name :: steps, object members => (members.lookup name).bind (follow? steps)
  | .index position :: steps, list items => items[position]?.bind (follow? steps)
  | _ :: _, _ => none

@[simp] theorem Data.follow?_nil (data : Data) : data.follow? [] = some data := by
  cases data <;> rfl

/-- The first step leads to a part, and the others on from there. -/
theorem Data.follow?_cons (data : Data) (step : Step) (steps : List Step) :
    data.follow? (step :: steps) = (data.follow? [step]).bind (follow? steps) := by
  cases step with
  | append => cases data <;> rfl
  | member name =>
    cases data with
    | object members => simp only [follow?, Option.bind_assoc, Option.bind_some]
    | _ => rfl
  | index position =>
    cases data with
    | list items => simp only [follow?, Option.bind_assoc, Option.bind_some]
    | _ => rfl

theorem Data.follow?_object (members : List (String × Data)) (name : String) :
    (Data.object members).follow? [.member name] = members.lookup name := by
  simp [follow?]

theorem Data.follow?_list (items : List Data) (position : Nat) :
    (Data.list items).follow? [.index position] = items[position]? := by
  simp [follow?]

/-- A step leads on only in an object by a name, and in a list by a position. -/
theorem Data.follow?_singleton_cases {data part : Data} {step : Step}
    (h : data.follow? [step] = some part) :
    (∃ members name, data = object members ∧ step = .member name ∧
        members.lookup name = some part) ∨
      ∃ items position, data = list items ∧ step = .index position ∧
        items[position]? = some part := by
  cases step with
  | append => cases data <;> cases h
  | member name =>
    cases data with
    | object members =>
      exact .inl ⟨members, name, rfl, rfl, (follow?_object members name).symm.trans h⟩
    | _ => cases h
  | index position =>
    cases data with
    | list items =>
      exact .inr ⟨items, position, rfl, rfl, (follow?_list items position).symm.trans h⟩
    | _ => cases h

/-- Nothing stands in an empty object. -/
theorem Data.follow?_object_nil {steps : List Step} {part : Data}
    (h : (Data.object []).follow? steps = some part) : part = .object [] := by
  cases steps with
  | nil => exact (Option.some.inj h).symm
  | cons step steps => cases step <;> cases h

/-! ### Ranks -/

namespace Put

/-- How many smaller positions the placements count here. -/
def rank (puts : List Put) (position : Nat) : Nat :=
  Nat.count (fun i => after (.index i) puts ≠ []) position

/-- The step with its rank in the place of a position. -/
def ranked (puts : List Put) : Step → Step
  | .index position => .index (rank puts position)
  | step => step

/-- The steps through the finished document, where each position is its rank among those that are
used at its array. -/
def resolve : List Put → List Step → List Step
  | _, [] => []
  | puts, step :: steps => ranked puts step :: resolve (after step puts) steps

end Put

namespace Keyed

variable {α : Type}

/-- One position more counts its own entry, if there is one. -/
theorem Sorted.countP_lt_succ {entries : List (Nat × α)} (h : Sorted entries) (i : Nat) :
    entries.countP (·.1 < i + 1) =
      entries.countP (·.1 < i) + if (entries.lookup i).isSome then 1 else 0 := by
  induction entries with
  | nil => rfl
  | cons e rest ih =>
    obtain ⟨k, v⟩ := e
    by_cases hk : i = k
    · subst hk
      have hbeyond : ∀ m ∈ rest, i < m.1 := (List.pairwise_cons.mp h).1
      have hnone : ∀ n ≤ i + 1, rest.countP (·.1 < n) = 0 := by
        intro n hn
        rw [List.countP_eq_zero]
        intro m hm
        have hlt := hbeyond m hm
        simp only [decide_eq_true_eq]
        omega
      rw [List.countP_cons_of_pos (by simp), List.countP_cons_of_neg (by simp),
        hnone (i + 1) (Nat.le_refl _), hnone i (Nat.le_succ i), List.lookup_cons_self]
      rfl
    · have hlookup : ((k, v) :: rest).lookup i = rest.lookup i := by
        rw [List.lookup_cons, beq_false_of_ne hk]
      have hhead : decide (k < i + 1) = decide (k < i) := by
        rw [decide_eq_decide]
        omega
      rw [hlookup, List.countP_cons, List.countP_cons, ih h.tail, hhead]
      exact Nat.add_right_comm _ _ _

theorem Sorted.countP_lt {entries : List (Nat × α)} (h : Sorted entries) (i : Nat) :
    entries.countP (·.1 < i) = Nat.count (fun j => (entries.lookup j).isSome = true) i := by
  induction i with
  | zero => simp
  | succ i ih => rw [h.countP_lt_succ, ih, Nat.count_succ]

/-- The entry of a position stands behind those of the smaller positions. -/
theorem Sorted.getElem?_countP {entries : List (Nat × α)} (h : Sorted entries) {i : Nat} {v : α}
    (hmem : (i, v) ∈ entries) : entries[entries.countP (·.1 < i)]? = some (i, v) := by
  induction entries with
  | nil => cases hmem
  | cons e rest ih =>
    have hbeyond := (List.pairwise_cons.mp h).1
    rcases List.mem_cons.mp hmem with rfl | hmem
    · have hnone : rest.countP (·.1 < i) = 0 := by
        rw [List.countP_eq_zero]
        intro m hm
        have hlt : i < m.1 := hbeyond m hm
        simp only [decide_eq_true_eq]
        omega
      simp [hnone]
    · have hlt : e.1 < i := hbeyond (i, v) hmem
      rw [List.countP_cons_of_pos (by simpa using hlt), List.getElem?_cons_succ]
      exact ih h.tail hmem

end Keyed

namespace Slot

open Put

theorem lookup_membersData (members : List (String × Slot)) (name : String) :
    (membersData members).lookup name = (members.lookup name).map toData := by
  induction members with
  | nil => rfl
  | cons m members ih =>
    obtain ⟨k, slot⟩ := m
    rw [membersData, List.lookup_cons, List.lookup_cons, ih]
    cases name == k <;> rfl

/-- The first step leads to a part, and the others on from there. -/
theorem at?_cons (slot : Slot) (step : Step) (steps : List Step) :
    slot.at? (step :: steps) = (slot.at? [step]).bind (at? steps) := by
  cases step with
  | append => cases slot <;> rfl
  | member name =>
    cases slot with
    | object members => simp only [at?, Option.bind_assoc, Option.bind_some]
    | _ => rfl
  | index position =>
    cases slot with
    | array elements texts => simp only [at?, Option.bind_assoc, Option.bind_some]
    | _ => rfl

/-- One step leads to a member of an object or to an element of an array. -/
theorem at?_singleton_cases {slot part : Slot} {step : Step} (h : slot.at? [step] = some part) :
    (∃ members name, slot = object members ∧ step = .member name ∧
        members.lookup name = some part) ∨
      ∃ elements texts i, slot = array elements texts ∧ step = .index i ∧
        elements.lookup i = some part := by
  cases step with
  | append => cases slot <;> cases h
  | member name =>
    cases slot with
    | object members => exact .inl ⟨members, name, rfl, rfl, by simpa [at?] using h⟩
    | empty => cases h
    | leaf items => cases h
    | array elements texts => cases h
  | index i =>
    cases slot with
    | array elements texts => exact .inr ⟨elements, texts, i, rfl, rfl, by simpa [at?] using h⟩
    | empty => cases h
    | leaf items => cases h
    | object members => cases h

namespace Holds

variable {slot part : Slot} {puts : List Put} {step : Step} {steps : List Step}

/-! ### Parts of a tree -/

/-- What one step leads to is not empty, and holds the placements that start with the step. -/
theorem of_step (h : slot.Holds puts) (hpart : slot.at? [step] = some part) :
    part.Holds (after step puts) ∧ part ≠ .empty := by
  obtain ⟨members, name, rfl, rfl, hl⟩ | ⟨elements, texts, i, rfl, rfl, hl⟩ :=
    at?_singleton_cases hpart
  · obtain ⟨-, hne, hchildren⟩ := h.of_members? rfl
    have hchild := hchildren name
    rw [hl] at hchild
    exact ⟨hchild, hne _ (Keyed.mem_of_lookup hl)⟩
  · obtain ⟨-, hne, hchildren, -⟩ := h.of_elements? rfl
    have hchild := hchildren i
    rw [hl] at hchild
    exact ⟨hchild, hne _ (Keyed.mem_of_lookup hl)⟩

/-- Where placements go on with a step, it leads somewhere. -/
theorem exists_step (h : slot.Holds puts) (hstep : step ≠ .append) (hne : after step puts ≠ []) :
    ∃ part, slot.at? [step] = some part := by
  cases h with
  | empty => exact absurd rfl hne
  | leaf items => exact absurd rfl hne
  | @object members _ _ hgo _ _ hchildren =>
    cases step with
    | member name =>
      have hchild := hchildren name
      cases hl : members.lookup name with
      | none =>
        rw [hl] at hchild
        exact absurd hchild.eq_nil hne
      | some part => exact ⟨part, by simp [Slot.at?, hl]⟩
    | index i => exact absurd (hgo.after_eq_nil (by simp [Step.isMember])) hne
    | append => exact absurd rfl hstep
  | @array elements _ _ hgo _ _ hchildren =>
    cases step with
    | index i =>
      have hchild := hchildren i
      cases hl : elements.lookup i with
      | none =>
        rw [hl] at hchild
        exact absurd hchild.eq_nil hne
      | some part => exact ⟨part, by simp [Slot.at?, hl]⟩
    | member name => exact absurd (hgo.after_eq_nil (by simp [Step.isMember])) hne
    | append => exact absurd rfl hstep

/-- A part of the tree holds the placements that pass through it. -/
theorem of_at? (h : slot.Holds puts) (hpart : slot.at? steps = some part) :
    part.Holds (afterAll steps puts) := by
  induction steps generalizing slot puts with
  | nil =>
    cases hpart.symm.trans (at?_nil slot)
    exact h
  | cons step steps ih =>
    obtain ⟨child, hchild, hpart⟩ := Option.bind_eq_some_iff.mp (at?_cons slot _ _ ▸ hpart)
    exact ih (h.of_step hchild).1 hpart

/-- There is a part wherever placements pass through. -/
theorem exists_at? (h : slot.Holds puts) (hsteps : .append ∉ steps)
    (hne : afterAll steps puts ≠ []) : ∃ part, slot.at? steps = some part := by
  induction steps generalizing slot puts with
  | nil => exact ⟨slot, at?_nil slot⟩
  | cons step steps ih =>
    obtain ⟨hstep, hsteps⟩ := not_or.mp (List.mem_cons.not.mp hsteps)
    have hafter : after step puts ≠ [] := by
      intro hnil
      rw [afterAll, hnil, afterAll_nil] at hne
      exact hne rfl
    obtain ⟨child, hchild⟩ := h.exists_step (Ne.symm hstep) hafter
    obtain ⟨part, hpart⟩ := ih (h.of_step hchild).1 hsteps hne
    exact ⟨part, by rw [at?_cons, hchild, Option.bind_some, hpart]⟩

/-! ### Parts of the finished document -/

/-- An array has an element for each position that a placement counts, and no other. -/
theorem isSome_lookup_iff {elements : List (Nat × Slot)} {texts : List String}
    (h : (Slot.array elements texts).Holds puts) (i : Nat) :
    (elements.lookup i).isSome = true ↔ after (.index i) puts ≠ [] := by
  constructor
  · intro hi hnil
    obtain ⟨part, hl⟩ := Option.isSome_iff_exists.mp hi
    have hpart : (Slot.array elements texts).at? [.index i] = some part := by simp [Slot.at?, hl]
    obtain ⟨hholds, hne⟩ := h.of_step hpart
    rw [hnil] at hholds
    exact hne hholds.eq_empty
  · intro hne
    obtain ⟨part, hpart⟩ := h.exists_step (by simp) hne
    obtain ⟨_, _, he, -, -⟩ | ⟨_, _, _, he, hi, hl⟩ := at?_singleton_cases hpart
    · cases he
    · cases he
      cases hi
      exact Option.isSome_iff_exists.mpr ⟨part, hl⟩

/-- The element of a position stands at the rank of the position. -/
theorem getElem?_rank {elements : List (Nat × Slot)} {texts : List String}
    (h : (Slot.array elements texts).Holds puts) {i : Nat} (hmem : (i, part) ∈ elements) :
    elements[rank puts i]? = some (i, part) := by
  obtain ⟨hsorted, -, -, -⟩ := h.of_elements? rfl
  have hrank : rank puts i = elements.countP (·.1 < i) := by
    rw [hsorted.countP_lt]
    simp only [rank, h.isSome_lookup_iff]
  rw [hrank]
  exact hsorted.getElem?_countP hmem

/-- A step resolves to the step that leads to the finished part. -/
theorem follow?_ranked (h : slot.Holds puts) (hpart : slot.at? [step] = some part) :
    slot.toData.follow? [ranked puts step] = some part.toData := by
  obtain ⟨members, name, rfl, rfl, hl⟩ | ⟨elements, texts, i, rfl, rfl, hl⟩ :=
    at?_singleton_cases hpart
  · change (Slot.object members).toData.follow? [.member name] = some part.toData
    rw [toData, Data.follow?_object, lookup_membersData, hl, Option.map_some]
  · have hrank := h.getElem?_rank (Keyed.mem_of_lookup hl)
    have hlt : rank puts i < (elementsData elements).length := by
      rw [elementsData_eq_map, List.length_map]
      exact (List.getElem?_eq_some_iff.mp hrank).1
    rw [toData, ranked, Data.follow?_list, List.getElem?_append_left hlt, elementsData_eq_map,
      List.getElem?_map, hrank, Option.map_some]

/-- Following the resolved steps of a part leads to what it becomes. -/
theorem follow?_resolve (h : slot.Holds puts) (hpart : slot.at? steps = some part) :
    slot.toData.follow? (resolve puts steps) = some part.toData := by
  induction steps generalizing slot puts with
  | nil =>
    cases hpart.symm.trans (at?_nil slot)
    exact Data.follow?_nil _
  | cons step steps ih =>
    obtain ⟨child, hchild, hpart⟩ := Option.bind_eq_some_iff.mp (at?_cons slot _ _ ▸ hpart)
    rw [resolve, Data.follow?_cons, h.follow?_ranked hchild, Option.bind_some]
    exact ih (h.of_step hchild).1 hpart

/-- A step through the finished document leads to a finished part, or to one text of a list. -/
theorem follow?_toData_cases (h : slot.Holds puts) {data : Data}
    (hdata : slot.toData.follow? [step] = some data) :
    (∃ raw part, slot.at? [raw] = some part ∧ ranked puts raw = step ∧ data = part.toData) ∨
      ∃ s, data = .text s := by
  cases slot with
  | empty => cases step <;> cases hdata
  | leaf items =>
    obtain ⟨_, _, he, -, -⟩ | ⟨items', r, he, rfl, hitem⟩ := Data.follow?_singleton_cases hdata
    · by_cases hlength : items.length = 1
      · obtain ⟨item, rfl⟩ := List.length_eq_one_iff.mp hlength
        cases he
      · rw [toData_leaf hlength] at he
        cases he
    · by_cases hlength : items.length = 1
      · obtain ⟨item, rfl⟩ := List.length_eq_one_iff.mp hlength
        cases he
      · rw [toData_leaf hlength] at he
        cases he
        rw [List.getElem?_map] at hitem
        obtain ⟨s, -, rfl⟩ := Option.map_eq_some_iff.mp hitem
        exact .inr ⟨s, rfl⟩
  | object members =>
    obtain ⟨_, name, he, rfl, hl⟩ | ⟨_, _, he, -, -⟩ := Data.follow?_singleton_cases hdata
    · cases he
      rw [lookup_membersData] at hl
      obtain ⟨child, hchild, rfl⟩ := Option.map_eq_some_iff.mp hl
      exact .inl ⟨.member name, child, by simp [Slot.at?, hchild], rfl, rfl⟩
    · cases he
  | array elements texts =>
    obtain ⟨_, _, he, -, -⟩ | ⟨_, r, he, rfl, hitem⟩ := Data.follow?_singleton_cases hdata
    · cases he
    · cases he
      rw [elementsData_eq_map, List.getElem?_append] at hitem
      split_ifs at hitem with hlt
      · rw [List.getElem?_map] at hitem
        obtain ⟨⟨i, child⟩, helement, rfl⟩ := Option.map_eq_some_iff.mp hitem
        obtain ⟨hsorted, -, -, -⟩ := h.of_elements? rfl
        have hmem := List.mem_of_getElem? helement
        have hl := hsorted.lookup_eq_some_iff.mpr hmem
        -- the ranks tell the elements apart
        have hrank : rank puts i = r := by
          have hboth := (h.getElem?_rank hmem).trans helement.symm
          have hlt' := (List.getElem?_eq_some_iff.mp (h.getElem?_rank hmem)).1
          exact (List.getElem?_inj hlt' (List.Nodup.of_map _ hsorted.nodup_keys)).mp hboth
        exact .inl ⟨.index i, child, by simp [Slot.at?, hl], by rw [ranked, hrank], rfl⟩
      · rw [List.getElem?_map] at hitem
        obtain ⟨s, -, rfl⟩ := Option.map_eq_some_iff.mp hitem
        exact .inr ⟨s, rfl⟩

/-- Whatever stands in the finished document is a finished part at the end of resolved steps, or
one text of a list. -/
theorem follow?_cases (h : slot.Holds puts) {data : Data}
    (hdata : slot.toData.follow? steps = some data) :
    (∃ raw part, slot.at? raw = some part ∧ resolve puts raw = steps ∧ data = part.toData) ∨
      ∃ s, data = .text s := by
  induction steps generalizing slot puts with
  | nil =>
    cases hdata.symm.trans (Data.follow?_nil _)
    exact .inl ⟨[], slot, at?_nil slot, rfl, rfl⟩
  | cons step steps ih =>
    rw [Data.follow?_cons, Option.bind_eq_some_iff] at hdata
    obtain ⟨first, hfirst, hdata⟩ := hdata
    obtain ⟨raw, child, hchild, rfl, rfl⟩ | ⟨s, rfl⟩ := h.follow?_toData_cases hfirst
    · obtain ⟨more, part, hpart, rfl, rfl⟩ | htext := ih (h.of_step hchild).1 hdata
      · exact .inl ⟨raw :: more, part, by rw [at?_cons, hchild, Option.bind_some, hpart], rfl, rfl⟩
      · exact .inr htext
    · cases steps with
      | nil =>
        cases hdata
        exact .inr ⟨s, rfl⟩
      | cons next steps => cases next <;> cases hdata

end Holds

end Slot

end Allowlist
