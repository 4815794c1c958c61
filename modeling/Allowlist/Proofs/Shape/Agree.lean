import Allowlist.Proofs.Outcome
import Allowlist.Proofs.Shape.Merge
import Mathlib.Data.List.Pairwise

/-!
# Proofs.Shape.Agree — which shapes merge

A merge refuses shapes of different kinds, and it looks for them under every name that both sides
declare.  So two shapes merge exactly when they are of one kind at every path of names that both
have (`exists_merge_iff`).  A merged shape has the kinds of both sides and no others
(`kindAt?_merge`), so it agrees with a third shape when both sides do: nothing is hidden by a merge
and nothing is added, and whether many shapes merge is a matter of pairs (`exists_mergeAll_iff`).
-/

namespace Allowlist.Shape

/-- What merging tells apart. -/
inductive Kind where
  | key
  | object
  /-- An array of plain values. -/
  | values
  /-- An array with element shapes. -/
  | elements
deriving DecidableEq

def kind : Shape → Kind
  | key => .key
  | object _ => .object
  | array [] => .values
  | array (_ :: _) => .elements

/-- The kind of the shape that a path of names leads to. -/
def kindAt? : Shape → List String → Option Kind
  | s, [] => some s.kind
  | object members, name :: path => (members.lookup name).bind fun s => s.kindAt? path
  | key, _ :: _ => none
  | array _, _ :: _ => none

/-- Wherever both shapes have a kind, it is one kind. -/
def Agree (a b : Shape) : Prop :=
  ∀ path k l, a.kindAt? path = some k → b.kindAt? path = some l → k = l

theorem Agree.refl (a : Shape) : a.Agree a :=
  fun _ _ _ hk hl => Option.some.inj (hk.symm.trans hl)

theorem Agree.symm {a b : Shape} (h : a.Agree b) : b.Agree a :=
  fun path k l hk hl => (h path l k hl hk).symm

instance : Std.Symm Agree := ⟨fun _ _ => Agree.symm⟩

@[simp] theorem kindAt?_nil (s : Shape) : s.kindAt? [] = some s.kind := by
  cases s <;> rfl

@[simp] theorem kindAt?_object_cons (members : List (String × Shape)) (name : String)
    (path : List String) :
    (object members).kindAt? (name :: path) =
      (members.lookup name).bind fun s => s.kindAt? path := rfl

theorem kind_array_eq_iff {es fs : List Shape} :
    (array es).kind = (array fs).kind ↔ (es = [] ↔ fs = []) := by
  cases es <;> cases fs <;> simp [kind]

/-- Shapes agree when they are of one kind and, if objects, agree under every common name. -/
theorem agree_object_iff {ms ns : List (String × Shape)} :
    (object ms).Agree (object ns) ↔
      ∀ name old new, ms.lookup name = some old → ns.lookup name = some new → old.Agree new := by
  constructor
  · intro h name old new hold hnew path k l hk hl
    exact h (name :: path) k l (by simpa [hold] using hk) (by simpa [hnew] using hl)
  · intro h path k l hk hl
    cases path with
    | nil => exact Option.some.inj (hk.symm.trans hl)
    | cons name path =>
      obtain ⟨old, hold, hk⟩ := Option.bind_eq_some_iff.mp hk
      obtain ⟨new, hnew, hl⟩ := Option.bind_eq_some_iff.mp hl
      exact h name old new hold hnew path k l hk hl

theorem agree_array_iff {es fs : List Shape} :
    (array es).Agree (array fs) ↔ (es = [] ↔ fs = []) := by
  rw [← kind_array_eq_iff]
  constructor
  · intro h
    exact h [] _ _ (kindAt?_nil _) (kindAt?_nil _)
  · intro h path k l hk hl
    cases path with
    | nil =>
      rw [kindAt?_nil, Option.some.injEq] at hk hl
      rw [← hk, ← hl, h]
    | cons name path => cases hk

theorem Agree.kind_eq {a b : Shape} (h : a.Agree b) : a.kind = b.kind :=
  h [] _ _ (kindAt?_nil a) (kindAt?_nil b)

/-- In a list of shapes every shape agrees with itself, so the order of pairs does not matter. -/
theorem pairwise_agree_iff {shapes : List Shape} :
    shapes.Pairwise Agree ↔ ∀ a ∈ shapes, ∀ b ∈ shapes, a.Agree b :=
  ⟨fun h _ ha _ hb => h.forall_of_forall (fun s _ => Agree.refl s) ha hb,
    List.pairwise_of_forall_mem_list⟩

/-! ### Two shapes -/

variable [MemberOrder]

/-- Members with different names merge, in whatever order, when they do under every common name. -/
theorem exists_mergeMembers_iff {path : List String} {ms ns : List (String × Shape)}
    (hns : (ns.map Prod.fst).Nodup) :
    (∃ cs, mergeMembers path ms ns = .ok cs) ↔
      ∀ name old new, ms.lookup name = some old → ns.lookup name = some new →
        ∃ m, merge (path ++ [name]) old new = .ok m := by
  constructor
  · rintro ⟨cs, h⟩ name old new hold hnew
    obtain ⟨hnone, -⟩ | ⟨hnone, -⟩ | ⟨x, y, m, hx, hy, -, hmerge⟩ :=
      mergeAt_cases (mergeAt_lookup_of_nodup hns h name)
    · cases hold.symm.trans hnone
    · cases hnew.symm.trans hnone
    · cases hold.symm.trans hx
      cases hnew.symm.trans hy
      exact ⟨m, hmerge⟩
  · intro h
    induction ns generalizing ms with
    | nil => exact ⟨ms, mergeMembers_nil path ms⟩
    | cons n ns ih =>
      obtain ⟨k, s⟩ := n
      obtain ⟨hfirst, hns⟩ := List.nodup_cons.mp hns
      have hadd : ∃ merged, mergeAt (path ++ [k]) (ms.lookup k) (some s) = .ok (some merged) := by
        cases hl : ms.lookup k with
        | none => exact ⟨s, rfl⟩
        | some old =>
          obtain ⟨m, hm⟩ := h k old s hl List.lookup_cons_self
          exact ⟨m, by rw [mergeAt, hm]; rfl⟩
      obtain ⟨merged, hmerged⟩ := hadd
      have hrest : ∃ cs, mergeMembers path (Keyed.insert k merged ms) ns = .ok cs := by
        refine ih hns fun name old new hold hnew => ?_
        have hne : name ≠ k := by
          rintro rfl
          exact hfirst (List.mem_map.mpr ⟨_, Keyed.mem_of_lookup hnew, rfl⟩)
        rw [Keyed.lookup_insert_of_ne hne] at hold
        exact h name old new hold (by rw [List.lookup_cons, beq_false_of_ne hne, hnew])
      obtain ⟨cs, hcs⟩ := hrest
      exact ⟨cs, mergeMembers_cons_eq_ok_iff.mpr
        ⟨_, addMember_eq_ok_iff.mpr ⟨merged, hmerged, rfl⟩, hcs⟩⟩

/-- Two shapes merge exactly when they agree. -/
theorem exists_merge_iff {path : List String} {a b : Shape} (hb : b.Sorted) :
    (∃ c, merge path a b = .ok c) ↔ a.Agree b := by
  induction a using Shape.induction generalizing path b with
  | key =>
    cases b with
    | key => exact iff_of_true ⟨key, by rw [merge]⟩ (Agree.refl key)
    | object ns => exact iff_of_false (by simp [merge]) fun h => by cases h.kind_eq
    | array fs =>
      exact iff_of_false (by simp [merge]) fun h => by cases fs <;> cases h.kind_eq
  | object ms ih =>
    cases b with
    | key => exact iff_of_false (by simp [merge]) fun h => by cases h.kind_eq
    | object ns =>
      obtain ⟨hns, hsub⟩ := sorted_object.mp hb
      have hmembers : (∃ c, merge path (object ms) (object ns) = .ok c) ↔
          ∃ cs, mergeMembers path ms (MemberOrder.arrange path ns) = .ok cs := by
        simp [merge, Outcome.map_eq_ok_iff]
      rw [hmembers, exists_mergeMembers_iff (nodup_arrange hns path), agree_object_iff]
      simp only [lookup_arrange hns]
      refine forall_congr' fun name => forall_congr' fun old => forall_congr' fun new => ?_
      refine imp_congr_right fun hold => imp_congr_right fun hnew => ?_
      exact ih _ (Keyed.mem_of_lookup hold) (hsub _ (Keyed.mem_of_lookup hnew))
    | array fs =>
      exact iff_of_false (by simp [merge]) fun h => by cases fs <;> cases h.kind_eq
  | array es =>
    cases b with
    | key => exact iff_of_false (by simp [merge]) fun h => by cases es <;> cases h.kind_eq
    | object ns => exact iff_of_false (by simp [merge]) fun h => by cases es <;> cases h.kind_eq
    | array fs =>
      rw [agree_array_iff]
      cases es <;> cases fs <;> simp [merge]

/-- A merged shape has the kinds of both. -/
theorem kindAt?_merge {path : List String} {a b c : Shape} (hb : b.Sorted)
    (h : merge path a b = .ok c) (names : List String) :
    c.kindAt? names = (a.kindAt? names).or (b.kindAt? names) := by
  induction a using Shape.induction generalizing path b c names with
  | key =>
    obtain ⟨rfl, rfl⟩ := merge_key_eq_ok_iff.mp h
    exact Option.or_self.symm
  | object ms ih =>
    obtain ⟨ns, cs, rfl, rfl, hm⟩ := merge_object_eq_ok_iff.mp h
    obtain ⟨hns, hsub⟩ := sorted_object.mp hb
    cases names with
    | nil => rfl
    | cons name names =>
      simp only [kindAt?_object_cons]
      obtain ⟨hl, hc⟩ | ⟨hr, hc⟩ | ⟨old, new, m, hl, hr, hc, hmerge⟩ :=
        mergeAt_cases (mergeAt_lookup hns hm name)
      · rw [hl, hc, Option.bind_none, Option.none_or]
      · rw [hr, hc, Option.bind_none, Option.or_none]
      · rw [hl, hr, hc]
        exact ih _ (Keyed.mem_of_lookup hl) (hsub _ (Keyed.mem_of_lookup hr)) hmerge names
  | array es =>
    obtain ⟨fs, rfl, rfl, he⟩ := merge_array_eq_ok_iff.mp h
    cases names with
    | nil =>
      rw [kindAt?_nil, kindAt?_nil, Option.some_or, Option.some.injEq, kind_array_eq_iff]
      simp [he]
    | cons name names => rfl

/-- A merged shape agrees with what both agree with. -/
theorem agree_merge_iff {path : List String} {a b c d : Shape} (hb : b.Sorted)
    (h : merge path a b = .ok c) : c.Agree d ↔ a.Agree d ∧ b.Agree d := by
  have hab : a.Agree b := (exists_merge_iff hb).mp ⟨c, h⟩
  have hc := kindAt?_merge hb h
  constructor
  · intro hcd
    refine ⟨fun names k l hk hl => hcd names k l ?_ hl, fun names k l hk hl => ?_⟩
    · rw [hc, hk, Option.some_or]
    · cases ha : a.kindAt? names with
      | none => exact hcd names k l (by rw [hc, ha, hk, Option.none_or]) hl
      | some k' =>
        rw [← hab names k' k ha hk]
        exact hcd names k' l (by rw [hc, ha, Option.some_or]) hl
  · rintro ⟨had, hbd⟩ names k l hk hl
    rw [hc, Option.or_eq_some_iff] at hk
    rcases hk with hk | ⟨-, hk⟩
    · exact had names k l hk hl
    · exact hbd names k l hk hl

/-! ### Many shapes -/

/-- Many shapes merge exactly when any two of them agree. -/
theorem exists_mergeAll_iff {first : Shape} {shapes : List Shape}
    (hshapes : ∀ s ∈ shapes, s.Sorted) :
    (∃ c, MergeAll first shapes c) ↔ (first :: shapes).Pairwise Agree := by
  induction shapes generalizing first with
  | nil => exact iff_of_true ⟨first, .nil first⟩ (List.pairwise_singleton _ _)
  | cons next shapes ih =>
    obtain ⟨hnext, hrest⟩ := List.forall_mem_cons.mp hshapes
    constructor
    · rintro ⟨c, hall⟩
      cases hall with
      | @cons _ _ m _ _ hmerge hmore =>
        obtain ⟨hm, hpairs⟩ := List.pairwise_cons.mp ((ih hrest).mp ⟨c, hmore⟩)
        have hboth : ∀ s ∈ shapes, first.Agree s ∧ next.Agree s := fun s hs =>
          (agree_merge_iff hnext hmerge).mp (hm s hs)
        have hfirst : first.Agree next := (exists_merge_iff hnext).mp ⟨m, hmerge⟩
        refine .cons (List.forall_mem_cons.mpr ⟨hfirst, fun s hs => (hboth s hs).1⟩) ?_
        exact .cons (fun s hs => (hboth s hs).2) hpairs
    · intro hpairs
      obtain ⟨hfirst, hmore⟩ := List.pairwise_cons.mp hpairs
      obtain ⟨hagree, hothers⟩ := List.forall_mem_cons.mp hfirst
      obtain ⟨hnexts, hpairs⟩ := List.pairwise_cons.mp hmore
      have hexists : ∃ m, merge [] first next = .ok m := (exists_merge_iff hnext).mpr hagree
      obtain ⟨m, hmerge⟩ := hexists
      have hm : ∀ s ∈ shapes, m.Agree s := fun s hs =>
        (agree_merge_iff hnext hmerge).mpr ⟨hothers s hs, hnexts s hs⟩
      obtain ⟨c, hall⟩ := (ih hrest).mpr (.cons hm hpairs)
      exact ⟨c, .cons hmerge hall⟩

/-- Many shapes merged have the kinds of all of them. -/
theorem MergeAll.kindAt?_eq_some_iff {first c : Shape} {shapes : List Shape}
    (h : MergeAll first shapes c) (hshapes : ∀ s ∈ shapes, s.Sorted) {path : List String}
    {k : Kind} :
    c.kindAt? path = some k ↔ ∃ s ∈ first :: shapes, s.kindAt? path = some k := by
  induction h with
  | nil s => simp
  | @cons a b m c shapes hmerge _ ih =>
    obtain ⟨hnext, hrest⟩ := List.forall_mem_cons.mp hshapes
    have hagree : a.Agree b := (exists_merge_iff hnext).mp ⟨m, hmerge⟩
    have hor : m.kindAt? path = some k ↔ a.kindAt? path = some k ∨ b.kindAt? path = some k := by
      rw [kindAt?_merge hnext hmerge, Option.or_eq_some_iff]
      refine or_congr_right' fun ha => and_iff_right_of_imp fun hb => ?_
      cases hl : a.kindAt? path with
      | none => rfl
      | some l => exact absurd (hagree path l k hl hb ▸ hl) ha
    rw [ih hrest]
    simp only [List.exists_mem_cons_iff, hor, or_assoc]

end Allowlist.Shape
