import Allowlist.Proofs.Rule.Denote
import Allowlist.Proofs.Shape.Alike

/-!
# Proofs.Rule.Alike — groups with the same entries in another order

An object is the merge of its members one by one, and an array keeps its elements once each.  The
results of both are alike for alike parts, so entries that are alike, in any order, build alike
groups, or both build none (`Tree.alike_group`).
-/

namespace Allowlist.Rule

/-! ### Alike entries -/

/-- Entries under one name with alike shapes. -/
def EntryAlike (e f : Option String × Shape) : Prop := e.1 = f.1 ∧ e.2.Alike f.2

theorem EntryAlike.elementOf {e f : Option String × Shape} (h : EntryAlike e f) :
    (elementOf e).Alike (elementOf f) := by
  obtain ⟨name?, shape⟩ := e
  obtain ⟨name?', shape'⟩ := f
  obtain ⟨hname, hshape⟩ := h
  obtain rfl : name? = name?' := hname
  cases name? with
  | none => exact hshape
  | some name => exact hshape.object_single name

/-- What entries build, alike entries build alike. -/
theorem exists_groupShape?_alike {kind : GroupKind} {xs ys : List (Option String × Shape)}
    (h : Matched EntryAlike xs ys) (hxs : ∀ e ∈ xs, e.2.Sorted) (hys : ∀ e ∈ ys, e.2.Sorted)
    {s : Shape} (hs : groupShape? kind xs = some s) :
    ∃ s', groupShape? kind ys = some s' ∧ s.Alike s' := by
  have hparts : Matched Shape.Alike (xs.map elementOf) (ys.map elementOf) :=
    h.map fun _ _ => EntryAlike.elementOf
  cases kind with
  | array =>
    obtain rfl := Option.some.inj hs
    exact ⟨_, rfl, Shape.alike_array_distinct hparts⟩
  | object =>
    have hempty : (Shape.object []).Sorted := by simp
    obtain ⟨hnamed, hall⟩ := groupShape?_object_eq_some_iff.mp hs
    obtain ⟨s', hall', halike⟩ := Shape.exists_mergeAll_alike (hparts.cons (.refl _))
      (List.forall_mem_cons.mpr ⟨hempty, forall_sorted_elementOf hxs⟩)
      (List.forall_mem_cons.mpr ⟨hempty, forall_sorted_elementOf hys⟩) hall
    refine ⟨s', groupShape?_object_eq_some_iff.mpr ⟨?_, hall'⟩, halike⟩
    exact (h.forall_iff fun e f hef => by rw [hef.1]).mp hnamed

/-! ### Alike trees -/

namespace Tree

/-- Trees that denote alike shapes, or no shape both. -/
structure Alike (t t' : Tree) : Prop where
  left : ∀ s, t.denote? = some s → ∃ s', t'.denote? = some s' ∧ s.Alike s'
  right : ∀ s', t'.denote? = some s' → ∃ s, t.denote? = some s ∧ s.Alike s'

theorem Alike.refl (t : Tree) : t.Alike t :=
  ⟨fun s hs => ⟨s, hs, .refl s⟩, fun s hs => ⟨s, hs, .refl s⟩⟩

theorem Alike.symm {t t' : Tree} (h : t.Alike t') : t'.Alike t :=
  ⟨fun s hs => (h.right s hs).imp fun _ ⟨ht, ha⟩ => ⟨ht, ha.symm⟩,
    fun s hs => (h.left s hs).imp fun _ ⟨ht, ha⟩ => ⟨ht, ha.symm⟩⟩

/-- Entries under one name with alike trees. -/
def EntryAlike (e f : Option String × Tree) : Prop := e.1 = f.1 ∧ e.2.Alike f.2

theorem EntryAlike.symm {e f : Option String × Tree} (h : EntryAlike e f) : EntryAlike f e :=
  ⟨h.1.symm, h.2.symm⟩

theorem exists_denoteEntries?_iff {entries : List (Option String × Tree)} :
    (∃ shapes, denoteEntries? entries = some shapes) ↔
      ∀ e ∈ entries, ∃ s, e.2.denote? = some s := by
  induction entries with
  | nil => simp [denoteEntries?]
  | cons e entries ih =>
    obtain ⟨name, tree⟩ := e
    simp only [denoteEntries?_cons_eq_some_iff, List.forall_mem_cons, ← ih]
    constructor
    · rintro ⟨_, s, rest, hs, hrest, -⟩
      exact ⟨⟨s, hs⟩, rest, hrest⟩
    · rintro ⟨⟨s, hs⟩, rest, hrest⟩
      exact ⟨_, s, rest, hs, hrest, rfl⟩

theorem mem_denoteEntries?_iff {entries : List (Option String × Tree)}
    {shapes : List (Option String × Shape)} (h : denoteEntries? entries = some shapes)
    {x : Option String × Shape} :
    x ∈ shapes ↔ ∃ e ∈ entries, e.1 = x.1 ∧ e.2.denote? = some x.2 := by
  induction entries generalizing shapes with
  | nil =>
    cases h
    simp
  | cons e entries ih =>
    obtain ⟨name, tree⟩ := e
    obtain ⟨s, rest, hs, hrest, rfl⟩ := denoteEntries?_cons_eq_some_iff.mp h
    rw [List.mem_cons, List.exists_mem_cons_iff, ih hrest, hs, Option.some.injEq, Prod.ext_iff]
    simp only [eq_comm]

/-- What entries denote, alike entries denote alike. -/
theorem exists_denoteEntries?_alike {es fs : List (Option String × Tree)}
    (h : Matched EntryAlike es fs) {xs : List (Option String × Shape)}
    (hxs : denoteEntries? es = some xs) :
    ∃ ys, denoteEntries? fs = some ys ∧ Matched Rule.EntryAlike xs ys := by
  have hdenote : ∀ f ∈ fs, ∃ s, f.2.denote? = some s := by
    intro f hf
    obtain ⟨e, he, hef⟩ := h.right f hf
    obtain ⟨s, hs⟩ := exists_denoteEntries?_iff.mp ⟨xs, hxs⟩ e he
    obtain ⟨s', hs', -⟩ := hef.2.left s hs
    exact ⟨s', hs'⟩
  obtain ⟨ys, hys⟩ := exists_denoteEntries?_iff.mpr hdenote
  refine ⟨ys, hys, fun x hx => ?_, fun y hy => ?_⟩
  · obtain ⟨e, he, hname, hs⟩ := (mem_denoteEntries?_iff hxs).mp hx
    obtain ⟨f, hf, hef⟩ := h.left e he
    obtain ⟨s', hs', halike⟩ := hef.2.left _ hs
    exact ⟨(f.1, s'), (mem_denoteEntries?_iff hys).mpr ⟨f, hf, rfl, hs'⟩,
      hname.symm.trans hef.1, halike⟩
  · obtain ⟨f, hf, hname, hs'⟩ := (mem_denoteEntries?_iff hys).mp hy
    obtain ⟨e, he, hef⟩ := h.right f hf
    obtain ⟨s, hs, halike⟩ := hef.2.right _ hs'
    exact ⟨(e.1, s), (mem_denoteEntries?_iff hxs).mpr ⟨e, he, rfl, hs⟩,
      hef.1.trans hname, halike⟩

/-- Groups of alike entries are alike, whatever the order of the entries. -/
theorem alike_group (kind : GroupKind) {es fs : List (Option String × Tree)}
    (h : Matched EntryAlike es fs) : (group kind es).Alike (group kind fs) := by
  have hone : ∀ {es fs : List (Option String × Tree)}, Matched EntryAlike es fs →
      ∀ s, (group kind es).denote? = some s →
        ∃ s', (group kind fs).denote? = some s' ∧ s.Alike s' := by
    intro es fs h s hs
    obtain ⟨xs, hxs, hgroup⟩ := denote?_group_eq_some_iff.mp hs
    obtain ⟨ys, hys, hmatched⟩ := exists_denoteEntries?_alike h hxs
    obtain ⟨s', hgroup', halike⟩ := exists_groupShape?_alike hmatched
      (sorted_denoteEntries? es hxs) (sorted_denoteEntries? fs hys) hgroup
    exact ⟨s', denote?_group_eq_some_iff.mpr ⟨ys, hys, hgroup'⟩, halike⟩
  refine ⟨hone h, fun s hs => ?_⟩
  obtain ⟨s', hs', halike⟩ := hone (h.symm fun _ _ => EntryAlike.symm) s hs
  exact ⟨s', hs', halike.symm⟩

end Tree

end Allowlist.Rule
