import Allowlist.Proofs.Document.Slot
import Allowlist.Proofs.Document.Step

/-!
# Proofs.Document.Holds — a tree of slots and what was placed in it

The placements that a tree has taken, in order, determine it up to nothing: each part holds the
placements that pass through it (`Slot.Holds`).  A tree takes one placement more exactly when it
conflicts with none of those before (`Holds.exists_place_iff`), and then holds that one too
(`Holds.place`).
-/

namespace Allowlist

/-- Items to place, with the steps to their place. -/
abbrev Put := List Step × List String

namespace Put

/-- The placements that start with the step, without it. -/
def after (step : Step) (puts : List Put) : List Put :=
  puts.filterMap fun put =>
    match put.1 with
    | [] => none
    | first :: rest => if first = step then some (rest, put.2) else none

/-- The placements that pass through the address, from there on. -/
def afterAll : List Step → List Put → List Put
  | [], puts => puts
  | step :: address, puts => afterAll address (after step puts)

/-- The items of the placements that append, in order. -/
def appended (puts : List Put) : List String :=
  puts.flatMap fun put => if put.1.head? = some .append then put.2 else []

/-- Every placement goes on from here, in an object or in an array. -/
def GoOn (inObject : Bool) (puts : List Put) : Prop :=
  ∀ put ∈ puts, ∃ step rest, put.1 = step :: rest ∧ step.isMember = inObject

theorem after_append (step : Step) (puts more : List Put) :
    after step (puts ++ more) = after step puts ++ after step more :=
  List.filterMap_append

@[simp] theorem mem_after {step : Step} {puts : List Put} {steps : List Step}
    {items : List String} : (steps, items) ∈ after step puts ↔ (step :: steps, items) ∈ puts := by
  unfold after
  rw [List.mem_filterMap]
  constructor
  · rintro ⟨⟨steps', items'⟩, hmem, h⟩
    cases steps' with
    | nil => cases h
    | cons first rest =>
      dsimp only at h
      split_ifs at h with hfirst
      cases h
      exact hfirst ▸ hmem
  · exact fun h => ⟨_, h, if_pos rfl⟩

@[simp] theorem afterAll_nil (address : List Step) : afterAll address [] = [] := by
  induction address with
  | nil => rfl
  | cons step address ih => exact ih

@[simp] theorem mem_afterAll {address : List Step} {puts : List Put} {steps : List Step}
    {items : List String} :
    (steps, items) ∈ afterAll address puts ↔ (address ++ steps, items) ∈ puts := by
  induction address generalizing puts with
  | nil => rfl
  | cons step address ih => rw [afterAll, ih, mem_after, List.cons_append]

theorem after_singleton_self (step : Step) (steps : List Step) (items : List String) :
    after step [(step :: steps, items)] = [(steps, items)] := by
  simp [after]

theorem after_singleton_of_ne {step first : Step} (h : first ≠ step) (steps : List Step)
    (items : List String) : after step [(first :: steps, items)] = [] := by
  simp [after, h]

theorem after_eq_nil_iff {step : Step} {puts : List Put} :
    after step puts = [] ↔ ∀ steps items, (step :: steps, items) ∉ puts := by
  rw [List.eq_nil_iff_forall_not_mem, Prod.forall]
  simp only [mem_after]

theorem GoOn.nil (inObject : Bool) : GoOn inObject [] := nofun

theorem GoOn.concat {inObject : Bool} {puts : List Put} (h : GoOn inObject puts) {step : Step}
    (hstep : step.isMember = inObject) (rest : List Step) (items : List String) :
    GoOn inObject (puts ++ [(step :: rest, items)]) := by
  intro put hput
  rcases List.mem_append.mp hput with hput | hput
  · exact h put hput
  · rw [List.mem_singleton.mp hput]
    exact ⟨step, rest, rfl, hstep⟩

/-- Placements cannot go on both in an object and in an array. -/
theorem GoOn.eq_nil {puts : List Put} (h : GoOn true puts) (h' : GoOn false puts) : puts = [] := by
  rw [List.eq_nil_iff_forall_not_mem]
  intro put hput
  obtain ⟨step, rest, he, hstep⟩ := h put hput
  obtain ⟨step', rest', he', hstep'⟩ := h' put hput
  rw [he, List.cons.injEq] at he'
  rw [← he'.1, hstep] at hstep'
  cases hstep'

/-- No placement starts with a step of the other kind. -/
theorem GoOn.after_eq_nil {inObject : Bool} {puts : List Put} (h : GoOn inObject puts)
    {step : Step} (hstep : step.isMember ≠ inObject) : after step puts = [] := by
  rw [after_eq_nil_iff]
  intro steps items hput
  obtain ⟨first, rest, he, hfirst⟩ := h _ hput
  cases he
  exact hstep hfirst

/-- None of the placements conflicts with the steps when all go on alike, and those that share the
first step, unless it appends, do not conflict after it. -/
theorem forall_not_conflict_cons_iff {puts : List Put} {step : Step} {rest : List Step} :
    (∀ put ∈ puts, ¬ Step.Conflict put.1 (step :: rest)) ↔
      GoOn step.isMember puts ∧
        (step ≠ .append → ∀ put ∈ after step puts, ¬ Step.Conflict put.1 rest) := by
  simp only [Step.not_conflict_cons_iff]
  constructor
  · refine fun h => ⟨fun put hput => ?_, fun hstep put hput => ?_⟩
    · obtain ⟨first, steps, he, hfirst, -⟩ := h put hput
      exact ⟨first, steps, he, hfirst⟩
    · obtain ⟨first, steps, he, -, hafter⟩ := h _ (mem_after.mp hput)
      cases he
      exact hafter rfl hstep
  · rintro ⟨hgo, hafter⟩ ⟨steps, items⟩ hput
    obtain ⟨first, steps, rfl, hfirst⟩ := hgo _ hput
    refine ⟨first, steps, rfl, hfirst, ?_⟩
    rintro rfl hstep
    exact hafter hstep (steps, items) (mem_after.mpr hput)

end Put

namespace Slot

open Put

/-- The slot is what the placements make: every part holds those that pass through it. -/
inductive Holds : Slot → List Put → Prop
  | empty : Holds empty []
  | leaf (items : List String) : Holds (leaf items) [([], items)]
  | object {members : List (String × Slot)} {puts : List Put} : puts ≠ [] → GoOn true puts →
      Keyed.Sorted members → (∀ m ∈ members, m.2 ≠ .empty) →
      (∀ name, Holds ((members.lookup name).getD .empty) (after (.member name) puts)) →
      Holds (object members) puts
  | array {elements : List (Nat × Slot)} {puts : List Put} : puts ≠ [] → GoOn false puts →
      Keyed.Sorted elements → (∀ e ∈ elements, e.2 ≠ .empty) →
      (∀ i, Holds ((elements.lookup i).getD .empty) (after (.index i) puts)) →
      Holds (array elements (appended puts)) puts

namespace Holds

variable {slot slot' : Slot} {puts : List Put} {steps : List Step} {items : List String}

theorem eq_nil (h : Holds .empty puts) : puts = [] := by
  cases h
  rfl

theorem eq_empty (h : slot.Holds []) : slot = .empty := by
  cases h with
  | empty => rfl
  | object hne _ _ _ _ => exact absurd rfl hne
  | array hne _ _ _ _ => exact absurd rfl hne

theorem ne_empty (h : slot.Holds puts) (hne : puts ≠ []) : slot ≠ .empty := by
  rintro rfl
  exact hne h.eq_nil

/-! ### Objects and arrays -/

/-- A slot is, or can become, an object exactly when all that it holds goes on in one. -/
theorem exists_members?_iff (h : slot.Holds puts) :
    (∃ members, slot.members? = some members) ↔ GoOn true puts := by
  cases h with
  | empty => exact iff_of_true ⟨[], rfl⟩ (.nil true)
  | leaf items => exact iff_of_false nofun fun hgo => by simpa using hgo ([], items) (by simp)
  | object _ hgo _ _ _ => exact iff_of_true ⟨_, rfl⟩ hgo
  | array hne hgo _ _ _ => exact iff_of_false nofun fun hgo' => hne (hgo'.eq_nil hgo)

theorem exists_elements?_iff (h : slot.Holds puts) :
    (∃ elements texts, slot.elements? = some (elements, texts)) ↔ GoOn false puts := by
  cases h with
  | empty => exact iff_of_true ⟨[], [], rfl⟩ (.nil false)
  | leaf items => exact iff_of_false nofun fun hgo => by simpa using hgo ([], items) (by simp)
  | object hne hgo _ _ _ => exact iff_of_false nofun fun hgo' => hne (hgo.eq_nil hgo')
  | array _ hgo _ _ _ => exact iff_of_true ⟨_, _, rfl⟩ hgo

/-- What an object holds, or a slot that can become one. -/
theorem of_members? (h : slot.Holds puts) {members : List (String × Slot)}
    (hmembers : slot.members? = some members) :
    Keyed.Sorted members ∧ (∀ m ∈ members, m.2 ≠ .empty) ∧
      ∀ name, Holds ((members.lookup name).getD .empty) (after (.member name) puts) := by
  obtain ⟨rfl, rfl⟩ | rfl := members?_eq_some_iff.mp hmembers
  · obtain rfl := h.eq_nil
    exact ⟨Keyed.sorted_nil, nofun, fun _ => .empty⟩
  · cases h with
    | object _ _ hsorted hne hchildren => exact ⟨hsorted, hne, hchildren⟩

theorem of_elements? (h : slot.Holds puts) {elements : List (Nat × Slot)} {texts : List String}
    (helements : slot.elements? = some (elements, texts)) :
    Keyed.Sorted elements ∧ (∀ e ∈ elements, e.2 ≠ .empty) ∧
      (∀ i, Holds ((elements.lookup i).getD .empty) (after (.index i) puts)) ∧
      texts = appended puts := by
  obtain ⟨rfl, rfl, rfl⟩ | rfl := elements?_eq_some_iff.mp helements
  · obtain rfl := h.eq_nil
    exact ⟨Keyed.sorted_nil, nofun, fun _ => .empty, rfl⟩
  · cases h with
    | array _ _ hsorted hne hchildren => exact ⟨hsorted, hne, hchildren, rfl⟩

/-! ### One placement more -/

/-- A tree takes a placement exactly when it conflicts with none that the tree holds. -/
theorem exists_place_iff (h : slot.Holds puts) :
    (∃ slot', place items steps slot = some slot') ↔
      ∀ put ∈ puts, ¬ Step.Conflict put.1 steps := by
  induction steps generalizing slot puts with
  | nil =>
    simp only [Step.conflict_nil_right, not_true_eq_false, imp_false,
      ← List.eq_nil_iff_forall_not_mem]
    constructor
    · rintro ⟨slot', hplace⟩
      cases slot <;> simp only [place, reduceCtorEq] at hplace
      exact h.eq_nil
    · rintro rfl
      obtain rfl := h.eq_empty
      exact ⟨_, rfl⟩
  | cons step rest ih =>
    rw [forall_not_conflict_cons_iff]
    cases step with
    | append =>
      have hgo := h.exists_elements?_iff
      constructor
      · rintro ⟨slot', hplace⟩
        obtain ⟨elements, texts, helements, -⟩ := place_append_eq_some_iff.mp hplace
        exact ⟨hgo.mp ⟨elements, texts, helements⟩, fun hne => absurd rfl hne⟩
      · rintro ⟨hall, -⟩
        obtain ⟨elements, texts, helements⟩ := hgo.mpr hall
        exact ⟨_, place_append_eq_some_iff.mpr ⟨elements, texts, helements, rfl⟩⟩
    | index position =>
      have hgo := h.exists_elements?_iff
      constructor
      · rintro ⟨slot', hplace⟩
        obtain ⟨elements, texts, element, helements, hplace, -⟩ :=
          place_index_eq_some_iff.mp hplace
        obtain ⟨-, -, hchildren, -⟩ := h.of_elements? helements
        exact ⟨hgo.mp ⟨elements, texts, helements⟩,
          fun _ => (ih (hchildren position)).mp ⟨element, hplace⟩⟩
      · rintro ⟨hall, hafter⟩
        obtain ⟨elements, texts, helements⟩ := hgo.mpr hall
        obtain ⟨-, -, hchildren, -⟩ := h.of_elements? helements
        obtain ⟨element, hplace⟩ := (ih (hchildren position)).mpr (hafter (by simp))
        exact ⟨_, place_index_eq_some_iff.mpr ⟨elements, texts, element, helements, hplace, rfl⟩⟩
    | member name =>
      have hgo := h.exists_members?_iff
      constructor
      · rintro ⟨slot', hplace⟩
        obtain ⟨members, member, hmembers, hplace, -⟩ := place_member_eq_some_iff.mp hplace
        obtain ⟨-, -, hchildren⟩ := h.of_members? hmembers
        exact ⟨hgo.mp ⟨members, hmembers⟩, fun _ => (ih (hchildren name)).mp ⟨member, hplace⟩⟩
      · rintro ⟨hall, hafter⟩
        obtain ⟨members, hmembers⟩ := hgo.mpr hall
        obtain ⟨-, -, hchildren⟩ := h.of_members? hmembers
        obtain ⟨member, hplace⟩ := (ih (hchildren name)).mpr (hafter (by simp))
        exact ⟨_, place_member_eq_some_iff.mpr ⟨members, member, hmembers, hplace, rfl⟩⟩

/-- A tree that takes a placement holds it after those before. -/
theorem place (h : slot.Holds puts) (hplace : Slot.place items steps slot = some slot') :
    slot'.Holds (puts ++ [(steps, items)]) := by
  induction steps generalizing slot slot' puts with
  | nil =>
    cases slot <;> simp only [Slot.place, Option.some.injEq, reduceCtorEq] at hplace
    subst hplace
    rw [h.eq_nil]
    exact .leaf items
  | cons step rest ih =>
    have hne : puts ++ [(step :: rest, items)] ≠ [] := by simp
    cases step with
    | append =>
      obtain ⟨elements, texts, helements, rfl⟩ := place_append_eq_some_iff.mp hplace
      obtain ⟨hsorted, hchild, hchildren, rfl⟩ := h.of_elements? helements
      have hgo := h.exists_elements?_iff.mp ⟨_, _, helements⟩
      have htexts : appended puts ++ items = appended (puts ++ [(.append :: rest, items)]) := by
        simp [appended]
      rw [htexts]
      refine .array hne (hgo.concat rfl rest items) hsorted hchild fun i => ?_
      rw [after_append, after_singleton_of_ne (by simp), List.append_nil]
      exact hchildren i
    | index position =>
      obtain ⟨elements, texts, element, helements, helement, rfl⟩ :=
        place_index_eq_some_iff.mp hplace
      obtain ⟨hsorted, hchild, hchildren, rfl⟩ := h.of_elements? helements
      have hgo := h.exists_elements?_iff.mp ⟨_, _, helements⟩
      have hnew := ih (hchildren position) helement
      have htexts : appended puts = appended (puts ++ [(.index position :: rest, items)]) := by
        simp [appended]
      rw [htexts]
      refine .array hne (hgo.concat rfl rest items) (hsorted.insert position element) ?_ fun i => ?_
      · intro e he
        rcases Keyed.eq_or_mem_of_mem_insert he with rfl | he
        · exact hnew.ne_empty (by simp)
        · exact hchild e he
      · rw [after_append]
        by_cases hi : i = position
        · subst hi
          rw [Keyed.lookup_insert_self, after_singleton_self]
          exact hnew
        · rw [Keyed.lookup_insert_of_ne hi, after_singleton_of_ne (by simpa using Ne.symm hi),
            List.append_nil]
          exact hchildren i
    | member name =>
      obtain ⟨members, member, hmembers, hmember, rfl⟩ := place_member_eq_some_iff.mp hplace
      obtain ⟨hsorted, hchild, hchildren⟩ := h.of_members? hmembers
      have hgo := h.exists_members?_iff.mp ⟨_, hmembers⟩
      have hnew := ih (hchildren name) hmember
      refine .object hne (hgo.concat rfl rest items) (hsorted.insert name member) ?_ fun k => ?_
      · intro m hm
        rcases Keyed.eq_or_mem_of_mem_insert hm with rfl | hm
        · exact hnew.ne_empty (by simp)
        · exact hchild m hm
      · rw [after_append]
        by_cases hk : k = name
        · subst hk
          rw [Keyed.lookup_insert_self, after_singleton_self]
          exact hnew
        · rw [Keyed.lookup_insert_of_ne hk, after_singleton_of_ne (by simpa using Ne.symm hk),
            List.append_nil]
          exact hchildren k

end Holds

end Slot

end Allowlist
