import Allowlist.Proofs.Matched
import Allowlist.Proofs.Shape.Agree

/-!
# Proofs.Shape.Alike — shapes that nothing tells apart

The order in which an array lists its element shapes is part of the shape and of nothing that is
asked of it: not of its depth, of what it accepts, or of what it agrees with.  Shapes that answer
these questions alike are `Alike`.  Building from alike parts gives alike shapes, for arrays
(`alike_array`) and for many shapes merged into one (`exists_mergeAll_alike`), whatever the order
of the parts and however often one of them stands there.
-/

namespace Allowlist.Shape

/-! ### Alike shapes -/

/-- Shapes of one depth that accept the same hops and agree with the same shapes. -/
structure Alike (a b : Shape) : Prop where
  depth : a.depth = b.depth
  accepts : ∀ hops, a.accepts hops = b.accepts hops
  kindAt? : ∀ path, a.kindAt? path = b.kindAt? path

namespace Alike

variable {a b c : Shape}

theorem refl (a : Shape) : a.Alike a := ⟨rfl, fun _ => rfl, fun _ => rfl⟩

theorem symm (h : a.Alike b) : b.Alike a :=
  ⟨h.depth.symm, fun hops => (h.accepts hops).symm, fun path => (h.kindAt? path).symm⟩

theorem agree_iff {a' b' : Shape} (ha : a.Alike a') (hb : b.Alike b') :
    a.Agree b ↔ a'.Agree b' := by
  simp only [Agree, ha.kindAt?, hb.kindAt?]

theorem object_single (h : a.Alike b) (name : String) :
    (object [(name, a)]).Alike (object [(name, b)]) where
  depth := by simp [Shape.depth, membersDepth, h.depth]
  accepts hops := by
    cases hops with
    | nil => rfl
    | cons hop rest =>
      rw [accepts_object_cons, accepts_object_cons]
      refine congrArg (Option.any · hop.member?) (funext fun found => ?_)
      by_cases hname : found = name
      · simp [hname, h.accepts]
      · simp [List.lookup_cons, beq_false_of_ne hname]
  kindAt? path := by
    cases path with
    | nil => rfl
    | cons found path =>
      rw [kindAt?_object_cons, kindAt?_object_cons]
      by_cases hname : found = name
      · simp [hname, h.kindAt?]
      · simp [List.lookup_cons, beq_false_of_ne hname]

end Alike

/-! ### Arrays -/

/-- Arrays with alike elements are alike. -/
theorem alike_array {es fs : List Shape} (h : Matched Alike es fs) :
    (array es).Alike (array fs) where
  depth := by
    have hdepth : elementsDepth es = elementsDepth fs := by
      refine eq_of_forall_ge_iff fun n => ?_
      rw [elementsDepth_le_iff, elementsDepth_le_iff]
      exact h.forall_iff fun a b hab => by rw [hab.depth]
    rw [depth, depth, hdepth]
  accepts hops := by
    cases hops with
    | nil => cases es <;> cases fs <;> rfl
    | cons hop rest =>
      have hany : es.any (·.accepts rest) = fs.any (·.accepts rest) :=
        h.any_eq fun a b hab => hab.accepts rest
      rw [accepts_array_cons, accepts_array_cons, hany]
      simp only [h.eq_nil_iff]
  kindAt? path := by
    cases path with
    | nil => rw [kindAt?_nil, kindAt?_nil, kind_array_eq_iff.mpr h.eq_nil_iff]
    | cons name path => rfl

/-- Only the distinct elements count. -/
theorem alike_array_distinct {es fs : List Shape} (h : Matched Alike es fs) :
    (array (Distinct.ofList es)).Alike (array (Distinct.ofList fs)) :=
  alike_array (h.congr (fun _ => Distinct.mem_ofList) fun _ => Distinct.mem_ofList)

/-! ### Many shapes -/

/-- What shapes merge to, alike shapes merge to alike. -/
theorem exists_mergeAll_alike {first first' c : Shape} {shapes shapes' : List Shape}
    (hall : Matched Alike (first :: shapes) (first' :: shapes'))
    (hsorted : ∀ s ∈ first :: shapes, s.Sorted) (hsorted' : ∀ s ∈ first' :: shapes', s.Sorted)
    (h : MergeAll first shapes c) : ∃ c', MergeAll first' shapes' c' ∧ c.Alike c' := by
  obtain ⟨hfirst, hshapes⟩ := List.forall_mem_cons.mp hsorted
  obtain ⟨hfirst', hshapes'⟩ := List.forall_mem_cons.mp hsorted'
  have hpairs : ∀ a ∈ first :: shapes, ∀ b ∈ first :: shapes, a.Agree b :=
    pairwise_agree_iff.mp ((exists_mergeAll_iff hshapes).mp ⟨c, h⟩)
  have hpairs' : ∀ a ∈ first' :: shapes', ∀ b ∈ first' :: shapes', a.Agree b :=
    (hall.forall_iff fun a a' ha => hall.forall_iff fun b b' hb => ha.agree_iff hb).mp hpairs
  obtain ⟨c', h'⟩ := (exists_mergeAll_iff hshapes').mpr (pairwise_agree_iff.mpr hpairs')
  refine ⟨c', h', eq_of_forall_ge_iff fun n => ?_, fun hops => ?_, fun path => ?_⟩
  · rw [h.depth_le_iff hfirst hshapes, h'.depth_le_iff hfirst' hshapes']
    exact hall.forall_iff fun a b hab => by rw [hab.depth]
  · rw [h.accepts hshapes, h'.accepts hshapes']
    exact hall.any_eq fun a b hab => hab.accepts hops
  · refine Option.ext fun k => ?_
    rw [h.kindAt?_eq_some_iff hshapes, h'.kindAt?_eq_some_iff hshapes']
    exact hall.exists_iff fun a b hab => by rw [hab.kindAt?]

end Allowlist.Shape
