import Allowlist.Proofs.Distinct
import Allowlist.Proofs.Shape.Basic
import Allowlist.Shape.Merge
import Mathlib.Order.MinMax
import Mathlib.Order.Nat

/-!
# Proofs.Shape.Merge — what a merged shape is

A merge of objects is a merge at each name (`mergeAt_lookup`), and a merge of arrays unites the
elements.  From these two facts: a merged shape accepts what one of the two accepts
(`accepts_merge`), it is as deep as the deeper of the two (`depth_merge`), and it is sorted when
they are.  The same holds of many shapes merged one after the other (`MergeAll`).
-/

namespace Allowlist.Shape

/-! ### Parts of a shape -/

theorem sorted_object_single {name : String} {shape : Shape} (h : shape.Sorted) :
    (object [(name, shape)]).Sorted := by
  simp [Keyed.Sorted, h]

theorem depth_le_membersDepth {members : List (String × Shape)} {name : String} {s : Shape}
    (h : members.lookup name = some s) : s.depth ≤ membersDepth members :=
  membersDepth_le_iff.mp le_rfl _ (Keyed.mem_of_lookup h)

theorem elementsDepth_extend (es fs : List Shape) :
    elementsDepth (Distinct.extend es fs) = max (elementsDepth es) (elementsDepth fs) := by
  refine eq_of_forall_ge_iff fun n => ?_
  simp only [Nat.max_le, elementsDepth_le_iff, Distinct.mem_extend, or_imp, forall_and]

variable [MemberOrder]

/-! ### Orders -/

/-- In any order there is one member of each name. -/
theorem nodup_arrange {ns : List (String × Shape)} (hns : Keyed.Sorted ns) (path : List String) :
    ((MemberOrder.arrange path ns).map Prod.fst).Nodup :=
  ((MemberOrder.perm path ns).map Prod.fst).nodup_iff.mpr hns.nodup_keys

/-- The order of members does not matter where they are looked up. -/
theorem lookup_arrange {ns : List (String × Shape)} (hns : Keyed.Sorted ns) (path : List String)
    (name : String) : (MemberOrder.arrange path ns).lookup name = ns.lookup name :=
  Keyed.lookup_eq_of_perm hns.nodup_keys (MemberOrder.perm path ns) name

/-! ### One name -/

/-- What the members of one name merge to; a member that only one side has stays as it is. -/
def mergeAt (path : List String) : Option Shape → Option Shape → Except (List String) (Option Shape)
  | none, b => .ok b
  | some a, none => .ok (some a)
  | some a, some b => (merge path a b).map some

@[simp] theorem mergeAt_none_right (path : List String) (a : Option Shape) :
    mergeAt path a none = .ok a := by
  cases a <;> rfl

/-- A merged member comes from one side, or is the merge of two. -/
theorem mergeAt_cases {path : List String} {a b c : Option Shape} (h : mergeAt path a b = .ok c) :
    (a = none ∧ c = b) ∨ (b = none ∧ c = a) ∨
      ∃ x y m, a = some x ∧ b = some y ∧ c = some m ∧ merge path x y = .ok m := by
  cases a with
  | none => exact .inl ⟨rfl, (Except.ok.inj h).symm⟩
  | some x =>
    cases b with
    | none => exact .inr (.inl ⟨rfl, (Except.ok.inj h).symm⟩)
    | some y =>
      rw [mergeAt] at h
      cases hm : merge path x y with
      | error e => simp [hm, Except.map] at h
      | ok m =>
        simp only [hm, Except.map, Except.ok.injEq] at h
        exact .inr (.inr ⟨x, y, m, rfl, rfl, h.symm, hm⟩)

/-! ### Members -/

theorem addMember_eq_ok_iff {path : List String} {ms ms' : List (String × Shape)} {name : String}
    {shape : Shape} :
    addMember path ms name shape = .ok ms' ↔
      ∃ merged, mergeAt (path ++ [name]) (ms.lookup name) (some shape) = .ok (some merged) ∧
        ms' = Keyed.insert name merged ms := by
  unfold addMember
  cases hl : ms.lookup name with
  | none => simp [bind, Except.bind, pure, Except.pure, mergeAt, eq_comm]
  | some old =>
    cases hm : merge (path ++ [name]) old shape <;>
      simp [bind, Except.bind, pure, Except.pure, mergeAt, Except.map, hm, eq_comm]

/-- A member is refused for the shape that its name has already. -/
theorem addMember_eq_error_iff {at? path : List String} {ms : List (String × Shape)}
    {name : String} {shape : Shape} :
    addMember at? ms name shape = .error path ↔
      ∃ old, ms.lookup name = some old ∧ merge (at? ++ [name]) old shape = .error path := by
  unfold addMember
  cases hl : ms.lookup name with
  | none => simp [bind, Except.bind, pure, Except.pure]
  | some old =>
    cases hm : merge (at? ++ [name]) old shape <;>
      simp [bind, Except.bind, pure, Except.pure, hm]

theorem mergeMembers_cons_eq_ok_iff {path : List String} {ms ns cs : List (String × Shape)}
    {name : String} {shape : Shape} :
    mergeMembers path ms ((name, shape) :: ns) = .ok cs ↔
      ∃ ms', addMember path ms name shape = .ok ms' ∧ mergeMembers path ms' ns = .ok cs := by
  rw [mergeMembers_cons]
  cases addMember path ms name shape <;> simp [Except.bind]

/-- A merge of members with different names, in whatever order, is a merge at each name. -/
theorem mergeAt_lookup_of_nodup {path : List String} {ms ns cs : List (String × Shape)}
    (hns : (ns.map Prod.fst).Nodup) (h : mergeMembers path ms ns = .ok cs) (name : String) :
    mergeAt (path ++ [name]) (ms.lookup name) (ns.lookup name) = .ok (cs.lookup name) := by
  induction ns generalizing ms with
  | nil =>
    rw [mergeMembers_nil] at h
    cases h
    simp
  | cons n ns ih =>
    obtain ⟨k, s⟩ := n
    obtain ⟨hfirst, hns⟩ := List.nodup_cons.mp hns
    obtain ⟨ms', ha, h⟩ := mergeMembers_cons_eq_ok_iff.mp h
    obtain ⟨merged, hm, rfl⟩ := addMember_eq_ok_iff.mp ha
    have hrest := ih hns h
    by_cases hk : name = k
    · -- the rest of the right side does not hold the name again
      subst hk
      have hnone : ns.lookup name = none := by
        rw [List.lookup_eq_none_iff]
        exact fun m hm => bne_iff_ne.mpr fun he =>
          hfirst (List.mem_map.mpr ⟨m, hm, he.symm⟩)
      rw [hnone, mergeAt_none_right, Keyed.lookup_insert_self] at hrest
      rw [List.lookup_cons_self, hm, Except.ok.inj hrest]
    · rw [Keyed.lookup_insert_of_ne hk] at hrest
      rw [List.lookup_cons, beq_false_of_ne hk]
      exact hrest

/-- A merge of objects is a merge at each name. -/
theorem mergeAt_lookup {path : List String} {ms ns cs : List (String × Shape)}
    (hns : Keyed.Sorted ns) (h : mergeMembers path ms (MemberOrder.arrange path ns) = .ok cs)
    (name : String) :
    mergeAt (path ++ [name]) (ms.lookup name) (ns.lookup name) = .ok (cs.lookup name) := by
  rw [← lookup_arrange hns path name]
  exact mergeAt_lookup_of_nodup (nodup_arrange hns path) h name

theorem sorted_addMember {path : List String} {ms ms' : List (String × Shape)} {name : String}
    {shape : Shape} (hms : Keyed.Sorted ms) (h : addMember path ms name shape = .ok ms') :
    Keyed.Sorted ms' := by
  obtain ⟨merged, -, rfl⟩ := addMember_eq_ok_iff.mp h
  exact hms.insert name merged

theorem sorted_mergeMembers {path : List String} {ms ns cs : List (String × Shape)}
    (hms : Keyed.Sorted ms) (h : mergeMembers path ms ns = .ok cs) : Keyed.Sorted cs := by
  induction ns generalizing ms with
  | nil =>
    rw [mergeMembers_nil] at h
    cases h
    exact hms
  | cons n ns ih =>
    obtain ⟨ms', ha, h⟩ := mergeMembers_cons_eq_ok_iff.mp h
    exact ih (sorted_addMember hms ha) h

/-! ### Merged shapes -/

/-- One more member is a merge with the object that has it alone. -/
theorem merge_object_single (path : List String) (ms : List (String × Shape)) (name : String)
    (shape : Shape) :
    merge path (.object ms) (.object [(name, shape)]) =
      (addMember path ms name shape).map .object := by
  rw [merge, List.perm_singleton.mp (MemberOrder.perm path [(name, shape)]), mergeMembers_cons]
  cases addMember path ms name shape with
  | error e => rfl
  | ok ms' => simp [Except.bind, Except.map, mergeMembers_nil]

/-- Only shapes of one kind merge. -/
theorem merge_cases {path : List String} {a b c : Shape} (h : merge path a b = .ok c) :
    (a = key ∧ b = key ∧ c = key) ∨
      (∃ ms ns cs, a = object ms ∧ b = object ns ∧ c = object cs ∧
        mergeMembers path ms (MemberOrder.arrange path ns) = .ok cs) ∨
      (∃ es fs, a = array es ∧ b = array fs ∧ c = array (Distinct.extend es fs) ∧
        (es = [] ↔ fs = [])) := by
  cases a with
  | key =>
    cases b with
    | key => exact .inl ⟨rfl, rfl, by simpa [merge, eq_comm] using h⟩
    | object ns => simp [merge] at h
    | array fs => simp [merge] at h
  | object ms =>
    cases b with
    | key => simp [merge] at h
    | object ns =>
      rw [merge] at h
      cases hm : mergeMembers path ms (MemberOrder.arrange path ns) with
      | error e => simp [hm, Except.map] at h
      | ok cs =>
        simp only [hm, Except.map, Except.ok.injEq] at h
        exact .inr (.inl ⟨ms, ns, cs, rfl, rfl, h.symm, hm⟩)
    | array fs => simp [merge] at h
  | array es =>
    cases b with
    | key => simp [merge] at h
    | object ns => simp [merge] at h
    | array fs =>
      rw [merge] at h
      split_ifs at h with he
      refine .inr (.inr ⟨es, fs, rfl, rfl, (Except.ok.inj h).symm, ?_⟩)
      rw [← List.isEmpty_iff, ← List.isEmpty_iff, he]

theorem merge_key_eq_ok_iff {path : List String} {b c : Shape} :
    merge path key b = .ok c ↔ b = key ∧ c = key := by
  constructor
  · intro h
    obtain ⟨-, hb, hc⟩ | ⟨ms, ns, cs, ha, -⟩ | ⟨es, fs, ha, -⟩ := merge_cases h
    · exact ⟨hb, hc⟩
    · cases ha
    · cases ha
  · rintro ⟨rfl, rfl⟩
    rw [merge]

theorem merge_object_eq_ok_iff {path : List String} {ms : List (String × Shape)} {b c : Shape} :
    merge path (object ms) b = .ok c ↔
      ∃ ns cs, b = object ns ∧ c = object cs ∧
        mergeMembers path ms (MemberOrder.arrange path ns) = .ok cs := by
  constructor
  · intro h
    obtain ⟨ha, -⟩ | ⟨ms', ns, cs, ha, hb, hc, hm⟩ | ⟨es, fs, ha, -⟩ := merge_cases h
    · cases ha
    · cases ha
      exact ⟨ns, cs, hb, hc, hm⟩
    · cases ha
  · rintro ⟨ns, cs, rfl, rfl, hm⟩
    rw [merge, hm]
    rfl

theorem merge_array_eq_ok_iff {path : List String} {es : List Shape} {b c : Shape} :
    merge path (array es) b = .ok c ↔
      ∃ fs, b = array fs ∧ c = array (Distinct.extend es fs) ∧ (es = [] ↔ fs = []) := by
  constructor
  · intro h
    obtain ⟨ha, -⟩ | ⟨ms, ns, cs, ha, -⟩ | ⟨es', fs, ha, hb, hc, hnil⟩ := merge_cases h
    · cases ha
    · cases ha
    · cases ha
      exact ⟨fs, hb, hc, hnil⟩
  · rintro ⟨fs, rfl, rfl, hnil⟩
    have hempty : es.isEmpty = fs.isEmpty := by
      rw [Bool.eq_iff_iff, List.isEmpty_iff, List.isEmpty_iff, hnil]
    rw [merge, if_pos hempty]

/-- A merged shape accepts what one of the two accepts, and nothing else. -/
theorem accepts_merge {path : List String} {a b c : Shape} (hb : b.Sorted)
    (h : merge path a b = .ok c) (hops : List Hop) :
    c.accepts hops = (a.accepts hops || b.accepts hops) := by
  induction a using Shape.induction generalizing path b c hops with
  | key =>
    obtain ⟨rfl, rfl⟩ := merge_key_eq_ok_iff.mp h
    rw [Bool.or_self]
  | object ms ih =>
    obtain ⟨ns, cs, rfl, rfl, hm⟩ := merge_object_eq_ok_iff.mp h
    obtain ⟨hns, hsub⟩ := sorted_object.mp hb
    cases hops with
    | nil => rfl
    | cons hop rest =>
      simp only [accepts_object_cons]
      cases hop.member? with
      | none => rfl
      | some name =>
        -- at the one name that is read, the merge is the merge of the two members
        have hat := mergeAt_lookup hns hm name
        simp only [Option.any_some]
        obtain ⟨hl, hc⟩ | ⟨hr, hc⟩ | ⟨old, new, m, hl, hr, hc, hmerge⟩ := mergeAt_cases hat
        · rw [hl, hc, Option.any_none, Bool.false_or]
        · rw [hr, hc, Option.any_none, Bool.or_false]
        · rw [hl, hr, hc]
          exact ih _ (Keyed.mem_of_lookup hl) (hsub _ (Keyed.mem_of_lookup hr)) hmerge rest
  | array es ih =>
    obtain ⟨fs, rfl, rfl, he⟩ := merge_array_eq_ok_iff.mp h
    cases hops with
    | nil => cases es <;> cases fs <;> simp [accepts]
    | cons hop rest =>
      have hany : (Distinct.extend es fs).any (·.accepts rest) =
          (es.any (·.accepts rest) || fs.any (·.accepts rest)) := by
        rw [Bool.eq_iff_iff]
        simp [or_and_right, exists_or]
      simp only [accepts_array_cons, Distinct.extend_eq_nil_iff, hany, he, and_self]
      cases hop.isElement <;> by_cases hf : fs = [] <;> cases rest <;> simp [hf]

theorem sorted_merge {path : List String} {a b c : Shape} (ha : a.Sorted) (hb : b.Sorted)
    (h : merge path a b = .ok c) : c.Sorted := by
  induction a using Shape.induction generalizing path b c with
  | key =>
    obtain ⟨-, rfl⟩ := merge_key_eq_ok_iff.mp h
    exact sorted_key
  | object ms ih =>
    obtain ⟨ns, cs, rfl, rfl, hm⟩ := merge_object_eq_ok_iff.mp h
    obtain ⟨hms, hold⟩ := sorted_object.mp ha
    obtain ⟨hns, hnew⟩ := sorted_object.mp hb
    have hcs := sorted_mergeMembers hms hm
    refine sorted_object.mpr ⟨hcs, fun m hmem => ?_⟩
    obtain ⟨name, s⟩ := m
    have hat := mergeAt_lookup hns hm name
    rw [hcs.lookup_eq_some_iff.mpr hmem] at hat
    obtain ⟨-, hc⟩ | ⟨-, hc⟩ | ⟨old, new, m, hl, hr, hc, hmerge⟩ := mergeAt_cases hat
    · exact hnew (name, s) (Keyed.mem_of_lookup hc.symm)
    · exact hold (name, s) (Keyed.mem_of_lookup hc.symm)
    · cases hc
      have hmold := Keyed.mem_of_lookup hl
      exact ih _ hmold (hold _ hmold) (hnew _ (Keyed.mem_of_lookup hr)) hmerge
  | array es ih =>
    obtain ⟨fs, rfl, rfl, -⟩ := merge_array_eq_ok_iff.mp h
    rw [sorted_array] at ha hb ⊢
    exact fun e he => (Distinct.mem_extend.mp he).elim (ha e) (hb e)

/-! ### Depth -/

/-- Members merged at each name are as deep as the deeper side, if that holds at each name. -/
theorem membersDepth_mergeMembers {path : List String} {ms ns cs : List (String × Shape)}
    (hms : Keyed.Sorted ms) (hns : Keyed.Sorted ns)
    (h : mergeMembers path ms (MemberOrder.arrange path ns) = .ok cs)
    (ih : ∀ name old new m, ms.lookup name = some old → ns.lookup name = some new →
      merge (path ++ [name]) old new = .ok m → m.depth = max old.depth new.depth) :
    membersDepth cs = max (membersDepth ms) (membersDepth ns) := by
  have hcs := sorted_mergeMembers hms h
  refine Nat.le_antisymm (membersDepth_le_iff.mpr fun m hm => ?_) (Nat.max_le.mpr ⟨?_, ?_⟩)
  · obtain ⟨name, s⟩ := m
    have hat := mergeAt_lookup hns h name
    rw [hcs.lookup_eq_some_iff.mpr hm] at hat
    obtain ⟨-, hc⟩ | ⟨-, hc⟩ | ⟨old, new, m, hl, hr, hc, hmerge⟩ := mergeAt_cases hat
    · exact le_trans (depth_le_membersDepth hc.symm) (Nat.le_max_right _ _)
    · exact le_trans (depth_le_membersDepth hc.symm) (Nat.le_max_left _ _)
    · cases hc
      rw [ih name old new s hl hr hmerge]
      exact max_le_max (depth_le_membersDepth hl) (depth_le_membersDepth hr)
  · refine membersDepth_le_iff.mpr fun m hm => ?_
    obtain ⟨name, s⟩ := m
    have hs := hms.lookup_eq_some_iff.mpr hm
    obtain ⟨hl, -⟩ | ⟨-, hc⟩ | ⟨old, new, m, hl, hr, hc, hmerge⟩ :=
      mergeAt_cases (mergeAt_lookup hns h name)
    · simp [hs] at hl
    · exact depth_le_membersDepth (hc.trans hs)
    · cases hl.symm.trans hs
      exact le_trans (ih name _ new m hs hr hmerge ▸ Nat.le_max_left _ _) (depth_le_membersDepth hc)
  · refine membersDepth_le_iff.mpr fun m hm => ?_
    obtain ⟨name, s⟩ := m
    have hs := hns.lookup_eq_some_iff.mpr hm
    obtain ⟨-, hc⟩ | ⟨hr, -⟩ | ⟨old, new, m, hl, hr, hc, hmerge⟩ :=
      mergeAt_cases (mergeAt_lookup hns h name)
    · exact depth_le_membersDepth (hc.trans hs)
    · simp [hs] at hr
    · cases hr.symm.trans hs
      exact le_trans (ih name old _ m hl hs hmerge ▸ Nat.le_max_right _ _)
        (depth_le_membersDepth hc)

/-- A merged shape is as deep as the deeper of the two. -/
theorem depth_merge {path : List String} {a b c : Shape} (ha : a.Sorted) (hb : b.Sorted)
    (h : merge path a b = .ok c) : c.depth = max a.depth b.depth := by
  induction a using Shape.induction generalizing path b c with
  | key =>
    obtain ⟨rfl, rfl⟩ := merge_key_eq_ok_iff.mp h
    rw [max_self]
  | object ms ih =>
    obtain ⟨ns, cs, rfl, rfl, hm⟩ := merge_object_eq_ok_iff.mp h
    obtain ⟨hms, hold⟩ := sorted_object.mp ha
    obtain ⟨hns, hnew⟩ := sorted_object.mp hb
    have hdepth := membersDepth_mergeMembers hms hns hm fun name old new m hl hr hmerge =>
      ih _ (Keyed.mem_of_lookup hl) (hold _ (Keyed.mem_of_lookup hl))
        (hnew _ (Keyed.mem_of_lookup hr)) hmerge
    rw [depth, depth, depth, hdepth]
    omega
  | array es ih =>
    obtain ⟨fs, rfl, rfl, -⟩ := merge_array_eq_ok_iff.mp h
    rw [depth, depth, depth, elementsDepth_extend]
    omega

/-! ### Many shapes -/

/-- One shape after the other merged into the first. -/
inductive MergeAll : Shape → List Shape → Shape → Prop
  | nil (s : Shape) : MergeAll s [] s
  | cons {a b m c : Shape} {shapes : List Shape} :
      merge [] a b = .ok m → MergeAll m shapes c → MergeAll a (b :: shapes) c

namespace MergeAll

variable {first c : Shape} {shapes : List Shape}

theorem sorted (h : MergeAll first shapes c) (hfirst : first.Sorted)
    (hshapes : ∀ s ∈ shapes, s.Sorted) : c.Sorted := by
  induction h with
  | nil s => exact hfirst
  | cons hmerge _ ih =>
    obtain ⟨hnext, hrest⟩ := List.forall_mem_cons.mp hshapes
    exact ih (sorted_merge hfirst hnext hmerge) hrest

/-- Many shapes merged accept what one of them accepts. -/
theorem accepts (h : MergeAll first shapes c) (hshapes : ∀ s ∈ shapes, s.Sorted)
    (hops : List Hop) : c.accepts hops = (first :: shapes).any (·.accepts hops) := by
  induction h with
  | nil s => simp
  | cons hmerge _ ih =>
    obtain ⟨hnext, hrest⟩ := List.forall_mem_cons.mp hshapes
    rw [ih hrest, List.any_cons, accepts_merge hnext hmerge]
    simp only [List.any_cons, Bool.or_assoc]

/-- Many shapes merged are as deep as the deepest of them. -/
theorem depth_le_iff (h : MergeAll first shapes c) (hfirst : first.Sorted)
    (hshapes : ∀ s ∈ shapes, s.Sorted) {n : Nat} :
    c.depth ≤ n ↔ ∀ s ∈ first :: shapes, s.depth ≤ n := by
  induction h with
  | nil s => simp
  | cons hmerge _ ih =>
    obtain ⟨hnext, hrest⟩ := List.forall_mem_cons.mp hshapes
    rw [ih (sorted_merge hfirst hnext hmerge) hrest]
    simp only [List.forall_mem_cons, depth_merge hfirst hnext hmerge, Nat.max_le, and_assoc]

end MergeAll

end Allowlist.Shape
