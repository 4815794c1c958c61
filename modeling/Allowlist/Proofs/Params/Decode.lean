import Allowlist.Proofs.Document.Keys
import Allowlist.Proofs.Params.Filter

/-!
# Proofs.Params.Decode — nothing is decoded that the rules do not permit

The rules look at re-rooted keys, the document at positions after gaps are closed.  A key that is
kept is accepted hop by hop, the document has its values at alike steps, and shapes accept alike
steps alike: so whatever stands in the document stands where the rules permit it.
-/

namespace Allowlist.Params

open Document

/-- The string is one of a list that a key with several values makes, and the rules accept the
address of the list, which is that of the key. -/
def OneOfRepeated (root : Shape) (values : Values) (document : Data) (steps : List Step)
    (s : String) : Prop :=
  ∃ front position key hops items, steps = front ++ [.index position] ∧
    (key, items) ∈ values.entries ∧ items[position]? = some s ∧ 1 < items.length ∧
    Path.tokenize? key = some hops ∧ List.Forall₂ Hop.Alike hops (front.map Step.hop) ∧
    root.accepts (front.map Step.hop) = true ∧ document.At front (.texts items)

theorem accepts_of_filter {params : Params} {set : RuleSet} {values filtered : Values}
    (hrules : params.rules = some set) (hfilter : params.filter values = .ok filtered)
    {key : String} {items : List String} (hmem : (key, items) ∈ filtered.entries)
    {hops : List Hop} (htokens : Path.tokenize? key = some hops) :
    set.root.accepts hops = true := by
  obtain ⟨source, -, hkept⟩ := exists_source_of_filter hfilter hmem
  obtain ⟨hops', htokens', haccepts⟩ :=
    exists_hops_of_allows hrules (keptAs?_eq_some_iff.mp hkept).2
  rw [htokens, Option.some.injEq] at htokens'
  rw [htokens', haccepts]

/-- The rules accept the steps at which a kept key puts its values. -/
theorem accepts_of_puts {params : Params} {set : RuleSet} {values filtered : Values}
    (hrules : params.rules = some set) (hfilter : params.filter values = .ok filtered)
    {steps : List Step} {items : List String} (h : Puts filtered steps items) :
    set.root.accepts (steps.map Step.hop) = true := by
  obtain ⟨key, hops, hmem, htokens, hsteps⟩ := h
  rw [← set.root.accepts_congr (alike_of_mapM_step? hsteps)]
  exact accepts_of_filter hrules hfilter hmem htokens

theorem eq_leaf_of_toData {slot : Slot} {s : String} (h : slot.toData = .text s) :
    slot = .leaf [s] := by
  cases slot with
  | leaf items =>
    by_cases hlength : items.length = 1
    · obtain ⟨item, rfl⟩ := List.length_eq_one_iff.mp hlength
      cases h
      rfl
    · rw [Slot.toData_leaf hlength] at h
      cases h
  | empty => cases h
  | object members => cases h
  | array elements appended => cases h

/-- What the finished tree of the kept keys shows: a part on the way to what the rules accept, and
at its end if it is a string, or one string of the list that a key with several values makes. -/
theorem shows_permitted {params : Params} {set : RuleSet} {values filtered : Values} {root : Slot}
    (hrules : params.rules = some set) (hfilter : params.filter values = .ok filtered)
    (hroot : slots filtered = .ok root) {steps : List Step} {part : Data}
    (hne : steps ≠ [] ∨ ∃ s, part = .text s) (h : root.Shows steps part) :
    (∃ rest, set.root.accepts ((steps ++ rest).map Step.hop) = true ∧
        ∀ s, part = .text s → rest = []) ∨
      ∃ s, part = .text s ∧ OneOfRepeated set.root filtered root.toData steps s := by
  have hfrom := from_slots hroot
  cases h with
  | @part raw steps slot hslot hsteps =>
    refine .inl ?_
    by_cases hleaf : ∃ s, slot.toData = .text s
    · obtain ⟨s, hs⟩ := hleaf
      rw [eq_leaf_of_toData hs] at hslot
      have haccepts := accepts_of_puts hrules hfilter (hfrom.leaf raw [s] hslot)
      rw [set.root.accepts_steps_congr hsteps] at haccepts
      exact ⟨[], by rwa [List.append_nil], fun _ _ => rfl⟩
    · have hraw : raw ≠ [] := by
        rintro rfl
        exact hne.elim (fun hne => hne (List.forall₂_nil_left_iff.mp hsteps)) hleaf
      obtain ⟨rest, items, hputs⟩ := hfrom.way raw slot hslot hraw
      have haccepts := accepts_of_puts hrules hfilter hputs
      have halike : List.Forall₂ Step.Alike (raw ++ rest) (steps ++ rest) :=
        List.rel_append hsteps (List.forall₂_refl rest)
      rw [set.root.accepts_steps_congr halike] at haccepts
      exact ⟨rest, haccepts, fun s hs => absurd ⟨s, hs⟩ hleaf⟩
  | @appended raw front position elements appended s harray hs hfront =>
    obtain ⟨items, hputs, -⟩ := hfrom.appended raw elements appended harray s hs
    have haccepts := accepts_of_puts hrules hfilter hputs
    have halike : List.Forall₂ Step.Alike (raw ++ [.append]) (front ++ [.index position]) :=
      List.rel_append hfront (.cons (Step.alike_index position (.inl rfl)) .nil)
    rw [set.root.accepts_steps_congr halike] at haccepts
    exact .inl ⟨[], by rwa [List.append_nil], fun _ _ => rfl⟩
  | @item raw front position items s hleaf hlength hs hfront htexts =>
    have hputs := hfrom.leaf raw items hleaf
    have haccepts := accepts_of_puts hrules hfilter hputs
    rw [set.root.accepts_steps_congr hfront] at haccepts
    obtain ⟨key, hops, hmem, htokens, hsteps⟩ := hputs
    have hhops : List.Forall₂ Hop.Alike hops (front.map Step.hop) :=
      forall₂_alike_trans (alike_of_mapM_step? hsteps) (forall₂_alike_map_iff.mpr hfront)
    have hmore : 1 < items.length := by
      obtain ⟨hlt, -⟩ := List.getElem?_eq_some_iff.mp hs
      omega
    exact .inr ⟨s, rfl, front, position, key, hops, items, rfl, hmem, hs, hmore, htokens, hhops,
      haccepts, htexts⟩

/-- No mass assignment: every string of the document built from filtered values stands at an
address that the rules accept, or is one of the list that a key with several values makes at an
address that they accept; and every part of the document lies on the way to such an address. -/
theorem document_permitted {params : Params} {set : RuleSet} {values filtered : Values}
    {document : Data} (hrules : params.rules = some set)
    (hfilter : params.filter values = .ok filtered)
    (hdocument : ofValues filtered = .ok document) :
    (∀ steps s, document.At steps (.text s) →
        set.root.accepts (steps.map Step.hop) = true ∨
          OneOfRepeated set.root filtered document steps s) ∧
      ∀ steps part, steps ≠ [] → document.At steps part →
        (∃ rest, set.root.accepts ((steps ++ rest).map Step.hop) = true) ∨
          ∃ s, part = .text s ∧ OneOfRepeated set.root filtered document steps s := by
  obtain rfl | ⟨root, hroot, rfl⟩ := ofValues_cases hdocument
  · constructor
    · intro steps s h
      cases h with
      | member hmem _ => cases hmem
    · intro steps part hne h
      cases h with
      | here => exact absurd rfl hne
      | member hmem _ => cases hmem
  · have hordered := (from_slots hroot).ordered
    constructor
    · intro steps s h
      have hshows := Slot.shows_of_at hordered h
      obtain ⟨rest, haccepts, hrest⟩ | ⟨s', he, hlist⟩ :=
        shows_permitted hrules hfilter hroot (.inr ⟨s, rfl⟩) hshows
      · rw [hrest s rfl, List.append_nil] at haccepts
        exact .inl haccepts
      · cases he
        exact .inr hlist
    · intro steps part hne h
      have hshows := Slot.shows_of_at hordered h
      obtain ⟨rest, haccepts, -⟩ | hlist := shows_permitted hrules hfilter hroot (.inl hne) hshows
      · exact .inl ⟨rest, haccepts⟩
      · exact .inr hlist

/-- A filtered list under a root, read back at its position in the document. -/
theorem document_permitted_appended :
    filter ⟨some "u", some ⟨.object [("a", .array [])], ["a:[]"]⟩⟩
        ⟨[("u[a][]", ["x", "y"]), ("u[b]", ["z"])]⟩ = .ok ⟨[("a[]", ["x", "y"])]⟩ ∧
      ofValues ⟨[("a[]", ["x", "y"])]⟩ = .ok (.object [("a", .list [.text "x", .text "y"])]) ∧
      ((Shape.object [("a", .array [])]).accepts ([.member "a", .index 1].map Step.hop) = true ∨
        OneOfRepeated (.object [("a", .array [])]) ⟨[("a[]", ["x", "y"])]⟩
          (.object [("a", .list [.text "x", .text "y"])]) [.member "a", .index 1] "y") := by
  have hfilter : filter ⟨some "u", some ⟨.object [("a", .array [])], ["a:[]"]⟩⟩
      ⟨[("u[a][]", ["x", "y"]), ("u[b]", ["z"])]⟩ = .ok ⟨[("a[]", ["x", "y"])]⟩ := by
    decide +kernel
  have hdocument : ofValues ⟨[("a[]", ["x", "y"])]⟩ =
      .ok (.object [("a", .list [.text "x", .text "y"])]) := by
    have hadd : addKey .empty "a[]" ["x", "y"] = .ok (.object [("a", .array [] ["x", "y"])]) :=
      addKey_eq_ok_iff.mpr ⟨[.name "a", .anonymous], [.member "a", .append], by decide +kernel,
        by decide +kernel, rfl⟩
    have hslots : slots ⟨[("a[]", ["x", "y"])]⟩ = .ok (.object [("a", .array [] ["x", "y"])]) := by
      rw [slots, Outcome.foldlM_cons_eq_ok_iff]
      exact ⟨_, hadd, rfl⟩
    rw [ofValues, hslots]
    rfl
  have hat : Data.At (.object [("a", .list [.text "x", .text "y"])])
      [.member "a", .index 1] (.text "y") :=
    .member List.mem_cons_self (.item rfl .here)
  exact ⟨hfilter, hdocument, (document_permitted rfl hfilter hdocument).1 _ _ hat⟩

end Allowlist.Params
