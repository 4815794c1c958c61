import Allowlist.Proofs.Document.Slot
import Allowlist.Proofs.Outcome
import Allowlist.Proofs.Path
import Allowlist.Proofs.Shape.Basic

/-!
# Proofs.Document.Address — the steps to a part of a finished document

A part of a document is addressed by member names and positions (`Data.At`).  Positions are not
the numbers of the keys: gaps are closed, and appended texts come last.  But no shape tells two
element hops apart, so an address is accepted when the steps of the key are (`Step.Alike`).
`Slot.shows_of_at` says where a part of a finished document comes from.
-/

namespace Allowlist

/-! ### Steps as hops -/

/-- The hop that spells the step. -/
def Step.hop : Step → Hop
  | .member name => .bracket name
  | .index position => .bracket (toString position)
  | .append => .anonymous

theorem isDecimal_toString (n : Nat) : isDecimal (toString n) = true := by
  have hall : (Nat.toDigits 10 n).all Char.isDigit = true :=
    List.all_eq_true.mpr fun c hc => Nat.isDigit_of_mem_toDigits (by decide) (by decide) hc
  simp [isDecimal, Nat.toString_eq_repr, Nat.toList_repr, hall, Nat.toDigits_ne_nil]

theorem ofDigitChars_toString (n : Nat) : Nat.ofDigitChars 10 (toString n).toList 0 = n := by
  rw [Nat.toString_eq_repr, Nat.toList_repr]
  exact Nat.ofDigitChars_toDigits (by decide) (by decide)

/-- A hop with a text is an element if the text is a number, and a member name if it is none. -/
theorem Hop.of_text? {hop : Hop} {text : String} (h : hop.text? = some text) :
    hop.member? = (if isDecimal text then none else some text) ∧
      hop.isElement = isDecimal text := by
  have hanonymous : hop.isAnonymous = false := by
    cases hop with
    | anonymous => cases h
    | name text => rfl
    | bracket text => rfl
  rw [member?, isElement, isNumeric, hanonymous, h]
  by_cases hdecimal : isDecimal text = true
  · simp [hdecimal]
  · simp [hdecimal]

/-- A hop is alike the one that spells its step. -/
theorem Hop.alike_of_step? {hop : Hop} {step : Step} (h : hop.step? = some step) :
    hop.Alike step.hop := by
  unfold Hop.step? at h
  cases htext : hop.text? with
  | none =>
    rw [htext] at h
    cases h
    cases hop with
    | anonymous => exact ⟨rfl, rfl⟩
    | name text => cases htext
    | bracket text => cases htext
  | some text =>
    rw [htext] at h
    dsimp only at h
    obtain ⟨hmember, helement⟩ := Hop.of_text? htext
    by_cases hdecimal : isDecimal text = true
    · rw [if_pos hdecimal] at h
      split_ifs at h with hbound
      cases h
      obtain ⟨hmember', helement'⟩ :=
        Hop.of_text? (rfl : (Hop.bracket (toString (Nat.ofDigitChars 10 text.toList 0))).text? = _)
      rw [isDecimal_toString] at hmember' helement'
      exact ⟨by rw [hmember, if_pos hdecimal, Step.hop, hmember', if_pos rfl],
        by rw [helement, hdecimal, Step.hop, helement']⟩
    · rw [if_neg hdecimal] at h
      cases h
      obtain ⟨hmember', helement'⟩ := Hop.of_text? (rfl : (Hop.bracket text).text? = _)
      exact ⟨hmember.trans hmember'.symm, helement.trans helement'.symm⟩

/-- The steps of a path are alike its hops. -/
theorem alike_of_mapM_step? {hops : List Hop} {steps : List Step}
    (h : hops.mapM Hop.step? = some steps) : List.Forall₂ Hop.Alike hops (steps.map Step.hop) := by
  rw [List.forall₂_map_right_iff]
  exact (Outcome.mapM_eq_some_iff.mp h).imp fun _ _ => Hop.alike_of_step?

/-- Two steps whose hops no shape tells apart. -/
def Step.Alike (a b : Step) : Prop := a.hop.Alike b.hop

instance : Std.Refl Step.Alike := ⟨fun _ => ⟨rfl, rfl⟩⟩

theorem forall₂_alike_trans {as bs cs : List Hop} (h : List.Forall₂ Hop.Alike as bs)
    (h' : List.Forall₂ Hop.Alike bs cs) : List.Forall₂ Hop.Alike as cs := by
  induction h generalizing cs with
  | nil => exact h'
  | cons hab _ ih =>
    cases h' with
    | cons hbc hrest => exact .cons ⟨hab.1.trans hbc.1, hab.2.trans hbc.2⟩ (ih hrest)

theorem forall₂_alike_map_iff {as bs : List Step} :
    List.Forall₂ Hop.Alike (as.map Step.hop) (bs.map Step.hop) ↔ List.Forall₂ Step.Alike as bs := by
  rw [List.forall₂_map_left_iff, List.forall₂_map_right_iff]
  exact Iff.rfl

/-- Positions and appended elements are alike. -/
theorem Step.alike_index (position : Nat) {a : Step} (h : a = .append ∨ ∃ i, a = .index i) :
    a.Alike (.index position) := by
  have hindex : ∀ i, (Step.index i).hop.member? = none ∧ (Step.index i).hop.isElement = true := by
    intro i
    obtain ⟨hmember, helement⟩ := Hop.of_text? (rfl : (Hop.bracket (toString i)).text? = _)
    rw [isDecimal_toString] at hmember helement
    exact ⟨hmember, helement⟩
  obtain ⟨hmember, helement⟩ := hindex position
  rcases h with rfl | ⟨i, rfl⟩
  · exact ⟨hmember.symm, helement.symm⟩
  · exact ⟨(hindex i).1.trans hmember.symm, (hindex i).2.trans helement.symm⟩

/-- Shapes accept alike addresses alike. -/
theorem Shape.accepts_steps_congr (s : Shape) {as bs : List Step}
    (h : List.Forall₂ Step.Alike as bs) :
    s.accepts (as.map Step.hop) = s.accepts (bs.map Step.hop) :=
  s.accepts_congr (forall₂_alike_map_iff.mpr h)

/-! ### Parts of documents -/

/-- The part stands in the document at the end of the steps. -/
inductive Data.At : Data → List Step → Data → Prop
  | here {document : Data} : At document [] document
  | member {members : List (String × Data)} {name : String} {child part : Data}
      {steps : List Step} :
      (name, child) ∈ members → At child steps part →
      At (.object members) (.member name :: steps) part
  | item {items : List Data} {position : Nat} {child part : Data} {steps : List Step} :
      items[position]? = some child → At child steps part →
      At (.list items) (.index position :: steps) part

namespace Slot

theorem toData_leaf {items : List String} (h : items.length ≠ 1) :
    (leaf items).toData = .texts items := by
  match items, h with
  | [], _ => rfl
  | [_], h => exact absurd rfl h
  | _ :: _ :: _, _ => rfl

theorem membersData_eq_map (members : List (String × Slot)) :
    membersData members = members.map fun member => (member.1, member.2.toData) := by
  induction members with
  | nil => rfl
  | cons m members ih =>
    obtain ⟨name, slot⟩ := m
    rw [membersData, ih, List.map_cons]

theorem elementsData_eq_map (elements : List (Nat × Slot)) :
    elementsData elements = elements.map fun element => element.2.toData := by
  induction elements with
  | nil => rfl
  | cons e elements ih =>
    obtain ⟨i, slot⟩ := e
    rw [elementsData, ih, List.map_cons]

/-- Every object of the tree has its members, and every array its elements, in order. -/
structure Ordered (slot : Slot) : Prop where
  members : ∀ steps members, slot.at? steps = some (object members) → Keyed.Sorted members
  elements : ∀ steps elements appended, slot.at? steps = some (array elements appended) →
    Keyed.Sorted elements

theorem Ordered.of_at? {slot child : Slot} {step : Step} (h : slot.Ordered)
    (hat : ∀ raw, slot.at? (step :: raw) = child.at? raw) : child.Ordered :=
  ⟨fun raw members hobject => h.members (step :: raw) members ((hat raw).trans hobject),
    fun raw elements appended harray =>
      h.elements (step :: raw) elements appended ((hat raw).trans harray)⟩

/-- What stands at an address of the finished document: a part of the tree at alike steps, an
appended text, or one text of a leaf that has not exactly one. -/
inductive Shows (slot : Slot) : List Step → Data → Prop
  | part {raw steps : List Step} {part : Slot} :
      slot.at? raw = some part → List.Forall₂ Step.Alike raw steps → Shows slot steps part.toData
  | appended {raw front : List Step} {position : Nat} {elements : List (Nat × Slot)}
      {appended : List String} {s : String} :
      slot.at? raw = some (array elements appended) → s ∈ appended →
      List.Forall₂ Step.Alike raw front → Shows slot (front ++ [.index position]) (.text s)
  | item {raw front : List Step} {position : Nat} {items : List String} {s : String} :
      slot.at? raw = some (leaf items) → items.length ≠ 1 → items[position]? = some s →
      List.Forall₂ Step.Alike raw front → slot.toData.At front (.texts items) →
      Shows slot (front ++ [.index position]) (.text s)

theorem Shows.cons {slot child : Slot} {step step' : Step} {steps : List Step} {x : Data}
    (hat : ∀ raw, slot.at? (step' :: raw) = child.at? raw)
    (hdata : ∀ front y, child.toData.At front y → slot.toData.At (step :: front) y)
    (halike : step'.Alike step) (h : child.Shows steps x) : slot.Shows (step :: steps) x := by
  cases h with
  | part hpart hsteps => exact .part ((hat _).trans hpart) (.cons halike hsteps)
  | appended harray hs hfront =>
    exact .appended ((hat _).trans harray) hs (.cons halike hfront)
  | item hleaf hlength hs hfront htexts =>
    exact .item ((hat _).trans hleaf) hlength hs (.cons halike hfront) (hdata _ _ htexts)

/-- Nothing stands below a string. -/
theorem at_text {s : String} {steps : List Step} {x : Data} (h : (Data.text s).At steps x) :
    steps = [] ∧ x = .text s := by
  cases h
  exact ⟨rfl, rfl⟩

/-- Where a part of the finished document comes from. -/
theorem shows_of_at {slot : Slot} {steps : List Step} {x : Data} (hs : slot.Ordered)
    (h : slot.toData.At steps x) : slot.Shows steps x := by
  induction steps generalizing slot with
  | nil =>
    generalize hdata : slot.toData = document at h
    cases h
    exact hdata ▸ .part (at?_nil slot) .nil
  | cons step steps ih =>
    cases slot with
    | empty => cases h
    | leaf items =>
      by_cases hlength : items.length = 1
      · obtain ⟨item, rfl⟩ := List.length_eq_one_iff.mp hlength
        cases h
      · rw [toData_leaf hlength] at h
        cases h with
        | @item _ position child _ _ hchild hrest =>
          rw [List.getElem?_map] at hchild
          obtain ⟨s, hitem, rfl⟩ := Option.map_eq_some_iff.mp hchild
          obtain ⟨rfl, rfl⟩ := at_text hrest
          have htexts : (leaf items).toData.At [] (.texts items) := by
            rw [toData_leaf hlength]
            exact .here
          exact .item (at?_nil _) hlength hitem .nil htexts
    | object members =>
      rw [toData, membersData_eq_map] at h
      cases h with
      | member hchild hrest =>
        obtain ⟨⟨name, child'⟩, hmem, he⟩ := List.mem_map.mp hchild
        cases he
        have hlookup : members.lookup name = some child' :=
          (hs.members [] members (at?_nil _)).lookup_eq_some_iff.mpr hmem
        have hat : ∀ raw, (object members).at? (.member name :: raw) = child'.at? raw := by
          intro raw
          rw [at?, hlookup, Option.bind_some]
        refine (ih (hs.of_at? hat) hrest).cons hat (fun front y hy => ?_) ⟨rfl, rfl⟩
        rw [toData, membersData_eq_map]
        exact .member hchild hy
    | array elements appended =>
      rw [toData, elementsData_eq_map] at h
      cases h with
      | @item _ position child _ _ hchild hrest =>
        have hdata : ∀ front y, child.At front y →
            (array elements appended).toData.At (.index position :: front) y := by
          intro front y hy
          rw [toData, elementsData_eq_map]
          exact .item hchild hy
        -- the counted elements stand first, the appended texts after them
        rw [List.getElem?_append] at hchild
        split_ifs at hchild with hlt
        · rw [List.getElem?_map] at hchild
          obtain ⟨⟨i, child'⟩, helement, rfl⟩ := Option.map_eq_some_iff.mp hchild
          have hlookup : elements.lookup i = some child' :=
            (hs.elements [] elements appended (at?_nil _)).lookup_eq_some_iff.mpr
              (List.mem_of_getElem? helement)
          have hat : ∀ raw, (array elements appended).at? (.index i :: raw) = child'.at? raw := by
            intro raw
            rw [at?, hlookup, Option.bind_some]
          have halike := Step.alike_index position (.inr ⟨i, rfl⟩)
          exact (ih (hs.of_at? hat) hrest).cons hat hdata halike
        · rw [List.getElem?_map] at hchild
          obtain ⟨s, hitem, rfl⟩ := Option.map_eq_some_iff.mp hchild
          obtain ⟨rfl, rfl⟩ := at_text hrest
          exact .appended (at?_nil _) (List.mem_of_getElem? hitem) .nil

end Slot

end Allowlist
