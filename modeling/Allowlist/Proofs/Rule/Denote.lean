import Allowlist.Proofs.Outcome
import Allowlist.Proofs.Rule.Grammar
import Allowlist.Proofs.Shape.Merge

/-!
# Proofs.Rule.Denote — the shapes that trees denote

An object declares its members one after the other, and every declaration is a merge with the
object that has this member alone.  So the shape of an object is that of many shapes merged
(`groupShape?_object_eq_some_iff`).  A shape that a tree denotes is sorted, and deeper than the shape
of each entry, also where an entry merges with others of the same name.
-/

namespace Allowlist.Rule

open Allowlist.Shape (MergeAll)

/-! ### Elements -/

theorem elementOf_of_name {entry : Option String × Shape} {name : String}
    (h : entry.1 = some name) : elementOf entry = .object [(name, entry.2)] := by
  obtain ⟨name?, shape⟩ := entry
  obtain rfl : name? = some name := h
  rfl

theorem sorted_elementOf {entry : Option String × Shape} (h : entry.2.Sorted) :
    (elementOf entry).Sorted := by
  obtain ⟨name?, shape⟩ := entry
  cases name? with
  | none => exact h
  | some name => exact Shape.sorted_object_single h

theorem forall_sorted_elementOf {entries : List (Option String × Shape)}
    (h : ∀ e ∈ entries, e.2.Sorted) : ∀ s ∈ entries.map elementOf, s.Sorted :=
  List.forall_mem_map.mpr fun e he => sorted_elementOf (h e he)

theorem depth_elementOf (entry : Option String × Shape) :
    (elementOf entry).depth = entry.1.elim entry.2.depth fun _ => entry.2.depth + 1 := by
  obtain ⟨name?, shape⟩ := entry
  cases name? with
  | none => rfl
  | some name => simp only [elementOf, Shape.depth, Shape.membersDepth, Nat.max_zero, Option.elim]

variable [Shape.MemberOrder]

/-! ### One entry more -/

/-- Declaring a member is a merge with the object that has it alone. -/
theorem declare?_eq_some_iff {ms ms' : List (String × Shape)} {entry : Option String × Shape} :
    declare? ms entry = some ms' ↔
      ∃ name, entry.1 = some name ∧
        Shape.merge [] (.object ms) (.object [(name, entry.2)]) = .ok (.object ms') := by
  obtain ⟨name?, shape⟩ := entry
  cases name? with
  | none => simp [declare?]
  | some name =>
    simp [declare?, Shape.merge_object_single, Outcome.map_eq_ok_iff]

theorem sorted_declare? {ms ms' : List (String × Shape)} {entry : Option String × Shape}
    (hms : (Shape.object ms).Sorted) (hentry : entry.2.Sorted)
    (h : declare? ms entry = some ms') : (Shape.object ms').Sorted := by
  obtain ⟨name, -, hmerge⟩ := declare?_eq_some_iff.mp h
  exact Shape.sorted_merge hms (Shape.sorted_object_single hentry) hmerge

theorem depth_declare? {ms ms' : List (String × Shape)} {entry : Option String × Shape}
    (hms : (Shape.object ms).Sorted) (hentry : entry.2.Sorted)
    (h : declare? ms entry = some ms') :
    (Shape.object ms').depth = max (Shape.object ms).depth (entry.2.depth + 1) := by
  obtain ⟨name, -, hmerge⟩ := declare?_eq_some_iff.mp h
  rw [Shape.depth_merge hms (Shape.sorted_object_single hentry) hmerge]
  simp only [Shape.depth, Shape.membersDepth, Nat.max_zero]

/-! ### Objects as merges -/

/-- Declaring entries is merging the objects that have one of them each. -/
theorem declareAll_eq_some_iff {entries : List (Option String × Shape)}
    {ms : List (String × Shape)} {s : Shape} :
    (entries.foldlM declare? ms).map Shape.object = some s ↔
      (∀ e ∈ entries, e.1 ≠ none) ∧ MergeAll (.object ms) (entries.map elementOf) s := by
  induction entries generalizing ms with
  | nil =>
    constructor
    · intro h
      cases h
      exact ⟨nofun, .nil _⟩
    · rintro ⟨-, hall⟩
      cases hall
      rfl
  | cons e entries ih =>
    rw [List.foldlM_cons, Option.bind_eq_bind, Option.map_bind, Option.bind_eq_some_iff]
    constructor
    · rintro ⟨ms', hdeclare, hrest⟩
      obtain ⟨name, hname, hmerge⟩ := declare?_eq_some_iff.mp hdeclare
      obtain ⟨hnamed, hall⟩ := ih.mp hrest
      refine ⟨List.forall_mem_cons.mpr ⟨by simp [hname], hnamed⟩, .cons ?_ hall⟩
      rwa [elementOf_of_name hname]
    · rintro ⟨hnamed, hall⟩
      obtain ⟨hfirst, hrest⟩ := List.forall_mem_cons.mp hnamed
      obtain ⟨name, hname⟩ := Option.ne_none_iff_exists'.mp hfirst
      cases hall with
      | cons hmerge hmore =>
        rw [elementOf_of_name hname] at hmerge
        obtain ⟨-, ms', -, rfl, -⟩ := Shape.merge_object_eq_ok_iff.mp hmerge
        exact ⟨ms', declare?_eq_some_iff.mpr ⟨name, hname, hmerge⟩, ih.mpr ⟨hrest, hmore⟩⟩

theorem groupShape?_object_eq_some_iff {entries : List (Option String × Shape)} {s : Shape} :
    groupShape? .object entries = some s ↔
      (∀ e ∈ entries, e.1 ≠ none) ∧ MergeAll (.object []) (entries.map elementOf) s :=
  declareAll_eq_some_iff

/-! ### Groups -/

/-- Only in an array may an entry stand without a name. -/
theorem eq_array_of_groupShape? {kind : GroupKind} {entries : List (Option String × Shape)}
    {s : Shape} (h : groupShape? kind entries = some s) {e : Option String × Shape}
    (he : e ∈ entries) (hname : e.1 = none) : kind = .array := by
  cases kind with
  | array => rfl
  | object =>
    exact absurd hname ((groupShape?_object_eq_some_iff.mp h).1 e he)

theorem sorted_groupShape? {kind : GroupKind} {entries : List (Option String × Shape)} {s : Shape}
    (hentries : ∀ e ∈ entries, e.2.Sorted) (h : groupShape? kind entries = some s) : s.Sorted := by
  cases kind with
  | object =>
    obtain ⟨-, hall⟩ := groupShape?_object_eq_some_iff.mp h
    exact hall.sorted (by simp) (forall_sorted_elementOf hentries)
  | array =>
    obtain rfl := Option.some.inj h
    refine Shape.sorted_array.mpr fun s hs => ?_
    exact forall_sorted_elementOf hentries s (Distinct.mem_ofList.mp hs)

/-- A group is deeper than each of its entries. -/
theorem depth_lt_groupShape? {kind : GroupKind} {entries : List (Option String × Shape)}
    {s : Shape} (hentries : ∀ e ∈ entries, e.2.Sorted) (h : groupShape? kind entries = some s)
    {e : Option String × Shape} (he : e ∈ entries) : e.2.depth < s.depth := by
  cases kind with
  | object =>
    obtain ⟨hnamed, hall⟩ := groupShape?_object_eq_some_iff.mp h
    obtain ⟨name, hname⟩ := Option.ne_none_iff_exists'.mp (hnamed e he)
    have hle := (hall.depth_le_iff (by simp) (forall_sorted_elementOf hentries)).mp le_rfl _
      (List.mem_cons_of_mem _ (List.mem_map_of_mem he))
    rwa [depth_elementOf, hname] at hle
  | array =>
    obtain rfl := Option.some.inj h
    have hmem : elementOf e ∈ Distinct.ofList (entries.map elementOf) :=
      Distinct.mem_ofList.mpr (List.mem_map_of_mem he)
    have hle := Shape.elementsDepth_le_iff.mp le_rfl _ hmem
    have hentry : e.2.depth ≤ (elementOf e).depth := by
      rw [depth_elementOf]
      cases e.1 <;> simp
    rw [Shape.depth]
    omega

/-! ### Trees -/

namespace Tree

theorem denote?_group_eq_some_iff {kind : GroupKind} {entries : List (Option String × Tree)}
    {s : Shape} :
    denote? (.group kind entries) = some s ↔
      ∃ shapes, denoteEntries? entries = some shapes ∧ groupShape? kind shapes = some s := by
  rw [denote?, Option.bind_eq_some_iff]

mutual
theorem sorted_denote? : (tree : Tree) → {s : Shape} → tree.denote? = some s → s.Sorted
  | .key, s, h => by
    cases h
    exact Shape.sorted_key
  | .group kind entries, s, h => by
    obtain ⟨shapes, hshapes, hgroup⟩ := denote?_group_eq_some_iff.mp h
    exact sorted_groupShape? (sorted_denoteEntries? entries hshapes) hgroup

theorem sorted_denoteEntries? : (entries : List (Option String × Tree)) →
    {shapes : List (Option String × Shape)} → denoteEntries? entries = some shapes →
    ∀ e ∈ shapes, e.2.Sorted
  | [], shapes, h => by
    cases h
    exact nofun
  | (name, tree) :: entries, shapes, h => by
    obtain ⟨shape, rest, hshape, hrest, rfl⟩ := denoteEntries?_cons_eq_some_iff.mp h
    exact List.forall_mem_cons.mpr
      ⟨sorted_denote? tree hshape, sorted_denoteEntries? entries hrest⟩
end

end Tree

end Allowlist.Rule
