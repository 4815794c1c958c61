import Allowlist.Proofs.Document.Address
import Allowlist.Proofs.Document.Step

/-!
# Proofs.Document.Keys — the keys behind a tree of slots

The tree grows key by key.  `Slot.From` is what stays true: leaves and appended texts are where a
key put them, nothing stands off the way to what a key put, and the elements of arrays stay in
order.
-/

namespace Allowlist

/-- Everything in the tree was put there by a placement. -/
structure Slot.From (placed : List Step → List String → Prop) (slot : Slot) : Prop where
  leaf : ∀ steps items, slot.at? steps = some (.leaf items) → placed steps items
  appended : ∀ steps elements appended, slot.at? steps = some (.array elements appended) →
    ∀ s ∈ appended, ∃ items, placed (steps ++ [.append]) items ∧ s ∈ items
  way : ∀ steps part, slot.at? steps = some part → steps ≠ [] →
    ∃ rest items, placed (steps ++ rest) items
  ordered : slot.Ordered

namespace Slot

variable {placed : List Step → List String → Prop}

theorem at?_empty_eq_some {steps : List Step} {part : Slot} (h : empty.at? steps = some part) :
    steps = [] ∧ part = empty := by
  cases steps with
  | nil => exact ⟨rfl, (Option.some.inj h).symm⟩
  | cons step steps => simp [at?_empty_cons] at h

theorem From.empty : From placed empty := by
  refine ⟨?_, ?_, ?_, ?_⟩
  · intro steps items h
    cases (at?_empty_eq_some h).2
  · intro steps elements appended h
    cases (at?_empty_eq_some h).2
  · intro steps part h hne
    exact absurd (at?_empty_eq_some h).1 hne
  · refine ⟨fun steps members h => ?_, fun steps elements appended h => ?_⟩
    · cases (at?_empty_eq_some h).2
    · cases (at?_empty_eq_some h).2

/-- The elements that a part has or can get are new, or those of the array that is there. -/
theorem elements?_find {slot : Slot} {steps : List Step} {elements : List (Nat × Slot)}
    {appended : List String} (h : (slot.find steps).elements? = some (elements, appended)) :
    (elements = [] ∧ appended = []) ∨ slot.at? steps = some (array elements appended) := by
  obtain ⟨-, hempty⟩ | harray := elements?_eq_some_iff.mp h
  · exact .inl hempty
  · obtain hempty | hfind := slot.find_cases steps
    · cases hempty.symm.trans harray
    · exact .inr (harray ▸ hfind)

theorem members?_find {slot : Slot} {steps : List Step} {members : List (String × Slot)}
    (h : (slot.find steps).members? = some members) :
    members = [] ∨ slot.at? steps = some (object members) := by
  obtain ⟨-, hempty⟩ | hobject := members?_eq_some_iff.mp h
  · exact .inl hempty
  · obtain hempty | hfind := slot.find_cases steps
    · cases hempty.symm.trans hobject
    · exact .inr (hobject ▸ hfind)

/-- Placing keeps members and elements in order. -/
theorem Ordered.place {slot slot' : Slot} {steps : List Step} {items : List String}
    (h : slot.Ordered) (hplace : Slot.place items steps slot = some slot') : slot'.Ordered := by
  refine ⟨fun other members hobject => ?_, fun other elements appended harray => ?_⟩
  · cases at?_place hplace hobject with
    | kept _ hkept => exact h.members other members hkept
    | @member name _ members member _ hmembers =>
      obtain rfl | hold := members?_find hmembers
      · exact Keyed.sorted_nil.insert name member
      · exact (h.members other members hold).insert name member
  · cases at?_place hplace harray with
    | kept _ hkept => exact h.elements other elements appended hkept
    | @append _ _ appended _ helements =>
      obtain ⟨rfl, -⟩ | hold := elements?_find helements
      · exact Keyed.sorted_nil
      · exact h.elements other elements appended hold
    | @index position _ elements _ element _ helements =>
      obtain ⟨rfl, -⟩ | hold := elements?_find helements
      · exact Keyed.sorted_nil.insert position element
      · exact (h.elements other elements appended hold).insert position element

/-- A placement whose `[]` comes last keeps what is known of the tree. -/
theorem From.place {slot slot' : Slot} {steps : List Step} {items : List String}
    (h : slot.From placed) (hnew : placed steps items)
    (hlast : ∀ front rest, steps = front ++ .append :: rest → rest = [])
    (hplace : place items steps slot = some slot') : slot'.From placed := by
  refine ⟨fun other items' hleaf => ?_, fun other elements appended harray s hs => ?_,
    fun other part hpart hne => ?_, h.ordered.place hplace⟩
  · cases at?_place hplace hleaf with
    | kept _ hkept => exact h.leaf other items' hkept
    | leaf he => exact he ▸ hnew
  · cases at?_place hplace harray with
    | kept _ hkept => exact h.appended other elements appended hkept s hs
    | @append rest _ appended he helements =>
      rcases List.mem_append.mp hs with hs | hs
      · obtain ⟨-, rfl⟩ | hold := elements?_find helements
        · cases hs
        · exact h.appended other _ appended hold s hs
      · rw [he, hlast other rest he] at hnew
        exact ⟨items, hnew, hs⟩
    | @index _ _ elements _ _ he helements =>
      obtain ⟨-, rfl⟩ | hold := elements?_find helements
      · cases hs
      · exact h.appended other elements appended hold s hs
  · cases at?_place hplace hpart with
    | kept _ hkept => exact h.way other part hkept hne
    | leaf he => exact ⟨[], items, by rwa [he, List.append_nil]⟩
    | append he _ => exact ⟨_, items, he ▸ hnew⟩
    | index he _ => exact ⟨_, items, he ▸ hnew⟩
    | member he _ => exact ⟨_, items, he ▸ hnew⟩

end Slot

/-! ### Documents -/

namespace Document

/-- The steps are those of a key, and the items are its values. -/
def Puts (values : Values) (steps : List Step) (items : List String) : Prop :=
  ∃ key hops, (key, items) ∈ values.entries ∧ Path.tokenize? key = some hops ∧
    hops.mapM Hop.step? = some steps

theorem addKey_eq_ok_iff {root root' : Slot} {key : String} {items : List String} :
    addKey root key items = .ok root' ↔
      ∃ hops steps, Path.tokenize? key = some hops ∧ hops.mapM Hop.step? = some steps ∧
        root.place items steps = some root' := by
  unfold addKey
  cases htokens : Path.tokenize? key with
  | none => simp
  | some hops =>
    dsimp only
    cases hsteps : hops.mapM Hop.step? with
    | none => simp [hsteps]
    | some steps =>
      cases hplace : root.place items steps <;> simp [hsteps, hplace]

/-- Only the last step of a key appends. -/
theorem append_last {key : String} {front rest : List Step}
    (h : Path.steps? key = some (front ++ .append :: rest)) : rest = [] := by
  obtain ⟨hops, htokens, hmap⟩ := Option.map_eq_some_iff.mp h
  obtain ⟨before, more, rfl, -, hmore⟩ := List.map_eq_append_iff.mp hmap
  obtain ⟨hop, behind, rfl, hreading, rfl⟩ := List.map_eq_cons_iff.mp hmore
  obtain rfl := Hop.reading_eq_append_iff.mp hreading
  rw [(Path.tokenize?_eq_some_iff.mp htokens).anonymous_last before behind rfl, List.map_nil]

/-- Everything in the slots of the values was put there by one of their keys. -/
theorem from_slots {values : Values} {root : Slot} (h : slots values = .ok root) :
    root.From (Puts values) := by
  refine Outcome.foldlM_induction (P := Slot.From (Puts values)) .empty ?_ h
  rintro slot ⟨key, items⟩ slot' hmem hslot hadd
  obtain ⟨hops, steps, htokens, hsteps, hplace⟩ := addKey_eq_ok_iff.mp hadd
  refine hslot.place ⟨key, hops, hmem, htokens, hsteps⟩ (fun front rest he => ?_) hplace
  have hkey : Path.steps? key = some steps := by
    rw [Path.steps?, htokens, Option.map_some, (mapM_step?_eq_some_iff.mp hsteps).1]
  exact append_last (he ▸ hkey)

/-- A document is an empty object, or shows a tree that the keys filled. -/
theorem ofValues_cases {values : Values} {document : Data} (h : ofValues values = .ok document) :
    document = .object [] ∨ ∃ root, slots values = .ok root ∧ document = root.toData := by
  unfold ofValues at h
  obtain ⟨root, hroot, h⟩ := Outcome.bind_eq_ok_iff.mp h
  split at h
  · cases h
    exact .inl rfl
  · cases h
    exact .inr ⟨root, hroot, rfl⟩

end Document

end Allowlist
