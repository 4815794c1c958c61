import Allowlist.Proofs.Shape.Agree

/-!
# Proofs.Shape.Algebra — merging in groups and merging again

Merging is not commutative, since an array keeps its elements in the order of first occurrence, and
it is not total.  It is associative even so, and both groupings fail together (`merge_assoc_iff`).
A merge takes in neither of its two sides once more (`merge_absorb_left`, `merge_absorb_right`).
Both are shown at each name, for a merge of objects is known by its look-ups
(`merge_object_eq_ok_iff`).  Together these are the laws of an idempotent partial semigroup
(`merge_partial_semigroup`).  So many shapes may be merged in groups (`MergeAll.flatten_iff`), and a
shape that has been merged already may be left out (`MergeAll.absorb`).
-/

namespace Allowlist.Shape

variable {path : List String} {a b c d ab bc : Shape}

section

variable [MemberOrder]

/-! ### Merges by their parts -/

theorem mergeAt_some_some_eq_ok_iff {w : Option Shape} :
    mergeAt path (some a) (some b) = .ok w ↔ ∃ m, merge path a b = .ok m ∧ some m = w := by
  rw [mergeAt, Outcome.map_eq_ok_iff]

/-- A merge of objects is known by what it is at each name. -/
theorem merge_object_iff_lookup {ms ns cs : List (String × Shape)} (hms : Keyed.Sorted ms)
    (hns : Keyed.Sorted ns) (hcs : Keyed.Sorted cs) :
    merge path (object ms) (object ns) = .ok (object cs) ↔
      ∀ name, mergeAt (path ++ [name]) (ms.lookup name) (ns.lookup name) =
        .ok (cs.lookup name) := by
  have hmembers : merge path (object ms) (object ns) = .ok (object cs) ↔
      mergeMembers path ms (MemberOrder.arrange path ns) = .ok cs := by
    simp [merge, Outcome.map_eq_ok_iff]
  rw [hmembers]
  constructor
  · intro h name
    exact mergeAt_lookup hns h name
  · intro h
    have hexists : ∃ cs', mergeMembers path ms (MemberOrder.arrange path ns) = .ok cs' := by
      refine (exists_mergeMembers_iff (nodup_arrange hns path)).mpr fun name old new hold hnew => ?_
      rw [lookup_arrange hns] at hnew
      have hat := h name
      rw [hold, hnew, mergeAt_some_some_eq_ok_iff] at hat
      obtain ⟨m, hm, -⟩ := hat
      exact ⟨m, hm⟩
    obtain ⟨cs', hcs'⟩ := hexists
    have heq : cs' = cs := (sorted_mergeMembers hms hcs').ext_lookup hcs fun name =>
      Except.ok.inj ((mergeAt_lookup hns hcs' name).symm.trans (h name))
    rw [hcs', heq]

/-! ### The object without members -/

theorem merge_object_nil_left {ms : List (String × Shape)} (hms : Keyed.Sorted ms) :
    merge path (object []) (object ms) = .ok (object ms) :=
  (merge_object_iff_lookup Keyed.sorted_nil hms hms).mpr fun _ => rfl

theorem merge_object_nil_right (path : List String) (ms : List (String × Shape)) :
    merge path (object ms) (object []) = .ok (object ms) := by
  rw [merge, List.perm_nil.mp (MemberOrder.perm path []), mergeMembers_nil]
  rfl

/-! ### Merging again -/

theorem merge_self (ha : a.Sorted) : merge path a a = .ok a := by
  induction a using Shape.induction generalizing path with
  | key => rw [merge]
  | object ms ih =>
    obtain ⟨hms, hsub⟩ := sorted_object.mp ha
    refine (merge_object_iff_lookup hms hms hms).mpr fun name => ?_
    cases hl : ms.lookup name with
    | none => rfl
    | some s =>
      have hmem := Keyed.mem_of_lookup hl
      exact mergeAt_some_some_eq_ok_iff.mpr ⟨s, ih _ hmem (hsub _ hmem), rfl⟩
  | array es =>
    refine merge_array_eq_ok_iff.mpr ⟨es, rfl, ?_, Iff.rfl⟩
    rw [Distinct.extend_eq_self fun _ h => h]

/-- A merged member takes in what its left side had once more, if shapes do. -/
theorem mergeAt_absorb_left {x y m : Option Shape}
    (ih : ∀ a b ab, x = some a → y = some b → merge path a b = .ok ab → merge path ab a = .ok ab)
    (hx : ∀ a, x = some a → a.Sorted) (h : mergeAt path x y = .ok m) :
    mergeAt path m x = .ok m := by
  obtain ⟨rfl, -⟩ | ⟨-, rfl⟩ | ⟨a, b, ab, rfl, rfl, rfl, hmerge⟩ := mergeAt_cases h
  · exact mergeAt_none_right path m
  · cases m with
    | none => rfl
    | some a => exact mergeAt_some_some_eq_ok_iff.mpr ⟨a, merge_self (hx a rfl), rfl⟩
  · exact mergeAt_some_some_eq_ok_iff.mpr ⟨ab, ih a b ab rfl rfl hmerge, rfl⟩

/-- A merge does not change when its left side is merged into it once more. -/
theorem merge_absorb_left (ha : a.Sorted) (hb : b.Sorted) (h : merge path a b = .ok ab) :
    merge path ab a = .ok ab := by
  have hab := sorted_merge ha hb h
  induction a using Shape.induction generalizing path b ab with
  | key =>
    obtain ⟨-, rfl⟩ := merge_key_eq_ok_iff.mp h
    exact merge_self ha
  | object ms ih =>
    obtain ⟨ns, cs, rfl, rfl, -⟩ := merge_object_eq_ok_iff.mp h
    obtain ⟨hms, hold⟩ := sorted_object.mp ha
    obtain ⟨hns, hnew⟩ := sorted_object.mp hb
    obtain ⟨hcs, -⟩ := sorted_object.mp hab
    have hat := (merge_object_iff_lookup hms hns hcs).mp h
    refine (merge_object_iff_lookup hcs hms hcs).mpr fun name => ?_
    refine mergeAt_absorb_left (fun x y m hx hy hmerge => ?_) (fun x hx => ?_) (hat name)
    · have hmem := Keyed.mem_of_lookup hx
      have hy' := hnew _ (Keyed.mem_of_lookup hy)
      exact ih _ hmem (hold _ hmem) hy' hmerge (sorted_merge (hold _ hmem) hy' hmerge)
    · exact hold _ (Keyed.mem_of_lookup hx)
  | array es =>
    obtain ⟨fs, rfl, rfl, hnil⟩ := merge_array_eq_ok_iff.mp h
    refine merge_array_eq_ok_iff.mpr ⟨es, rfl, ?_, ?_⟩
    · rw [Distinct.extend_eq_self fun e he => Distinct.mem_extend.mpr (.inl he)]
    · rw [Distinct.extend_eq_nil_iff, ← hnil, and_self]

/-! ### Merging in groups -/

/-- Three members of one name merge in either grouping, if shapes do. -/
theorem mergeAt_assoc {x y z xy yz w : Option Shape}
    (ih : ∀ a b c ab bc d, x = some a → y = some b → z = some c → merge path a b = .ok ab →
      merge path b c = .ok bc → merge path ab c = .ok d → merge path a bc = .ok d)
    (hxy : mergeAt path x y = .ok xy) (hyz : mergeAt path y z = .ok yz)
    (hw : mergeAt path xy z = .ok w) : mergeAt path x yz = .ok w := by
  obtain ⟨rfl, rfl⟩ | ⟨rfl, rfl⟩ | ⟨a, b, ab, rfl, rfl, rfl, hab⟩ := mergeAt_cases hxy
  · rw [← hw, hyz]
    rfl
  · cases hyz
    exact hw
  · cases z with
    | none =>
      cases hyz
      cases hw
      exact hxy
    | some c =>
      obtain ⟨bc, hbc, rfl⟩ := mergeAt_some_some_eq_ok_iff.mp hyz
      obtain ⟨d, hd, rfl⟩ := mergeAt_some_some_eq_ok_iff.mp hw
      exact mergeAt_some_some_eq_ok_iff.mpr ⟨d, ih a b c ab bc d rfl rfl rfl hab hbc hd, rfl⟩

/-- Where all merges exist, the grouping does not matter. -/
theorem merge_assoc (ha : a.Sorted) (hb : b.Sorted) (hc : c.Sorted)
    (hab : merge path a b = .ok ab) (hbc : merge path b c = .ok bc)
    (hd : merge path ab c = .ok d) : merge path a bc = .ok d := by
  have hsab := sorted_merge ha hb hab
  have hsbc := sorted_merge hb hc hbc
  have hsd := sorted_merge hsab hc hd
  induction a using Shape.induction generalizing path b c ab bc d with
  | key =>
    obtain ⟨rfl, rfl⟩ := merge_key_eq_ok_iff.mp hab
    obtain ⟨rfl, rfl⟩ := merge_key_eq_ok_iff.mp hbc
    exact hd
  | object ms ih =>
    obtain ⟨ns, abs, rfl, rfl, -⟩ := merge_object_eq_ok_iff.mp hab
    obtain ⟨qs, bcs, rfl, rfl, -⟩ := merge_object_eq_ok_iff.mp hbc
    obtain ⟨-, ds, -, rfl, -⟩ := merge_object_eq_ok_iff.mp hd
    obtain ⟨hms, hold⟩ := sorted_object.mp ha
    obtain ⟨hns, hnew⟩ := sorted_object.mp hb
    obtain ⟨hqs, hmore⟩ := sorted_object.mp hc
    obtain ⟨habs, -⟩ := sorted_object.mp hsab
    obtain ⟨hbcs, -⟩ := sorted_object.mp hsbc
    obtain ⟨hds, -⟩ := sorted_object.mp hsd
    -- at each name, the merges are those of what the three objects have under it
    refine (merge_object_iff_lookup hms hbcs hds).mpr fun name => ?_
    refine mergeAt_assoc (fun x y z xy yz w hx hy hz hxy hyz hw => ?_)
      ((merge_object_iff_lookup hms hns habs).mp hab name)
      ((merge_object_iff_lookup hns hqs hbcs).mp hbc name)
      ((merge_object_iff_lookup habs hqs hds).mp hd name)
    have hmem := Keyed.mem_of_lookup hx
    have hx' := hold _ hmem
    have hy' := hnew _ (Keyed.mem_of_lookup hy)
    have hz' := hmore _ (Keyed.mem_of_lookup hz)
    have hxy' := sorted_merge hx' hy' hxy
    exact ih _ hmem hx' hy' hz' hxy hyz hw hxy' (sorted_merge hy' hz' hyz)
      (sorted_merge hxy' hz' hw)
  | array es =>
    obtain ⟨fs, rfl, rfl, hnil⟩ := merge_array_eq_ok_iff.mp hab
    obtain ⟨gs, rfl, rfl, hnil'⟩ := merge_array_eq_ok_iff.mp hbc
    obtain ⟨gs', hgs, rfl, -⟩ := merge_array_eq_ok_iff.mp hd
    cases hgs
    refine merge_array_eq_ok_iff.mpr ⟨_, rfl, ?_, ?_⟩
    · rw [Distinct.extend_extend]
    · rw [Distinct.extend_eq_nil_iff, hnil, ← hnil', and_self]

/-- Three shapes merge in one grouping exactly when they do in the other, and to the same shape. -/
theorem merge_assoc_iff (ha : a.Sorted) (hb : b.Sorted) (hc : c.Sorted) :
    (∃ ab, merge path a b = .ok ab ∧ merge path ab c = .ok d) ↔
      ∃ bc, merge path b c = .ok bc ∧ merge path a bc = .ok d := by
  constructor
  · rintro ⟨ab, hab, hd⟩
    have hagree := (agree_merge_iff hb hab).mp ((exists_merge_iff hc).mp ⟨d, hd⟩)
    have hexists : ∃ bc, merge path b c = .ok bc := (exists_merge_iff hc).mpr hagree.2
    obtain ⟨bc, hbc⟩ := hexists
    exact ⟨bc, hbc, merge_assoc ha hb hc hab hbc hd⟩
  · rintro ⟨bc, hbc, hd⟩
    -- what agrees with the merge agrees with both its sides, so the other merges exist
    have hagree : bc.Agree a := ((exists_merge_iff (sorted_merge hb hc hbc)).mp ⟨d, hd⟩).symm
    obtain ⟨hba, hca⟩ := (agree_merge_iff hc hbc).mp hagree
    have hexists : ∃ ab, merge path a b = .ok ab := (exists_merge_iff hb).mpr hba.symm
    obtain ⟨ab, hab⟩ := hexists
    have hbagree : b.Agree c := (exists_merge_iff hc).mp ⟨bc, hbc⟩
    have hexists' : ∃ d', merge path ab c = .ok d' :=
      (exists_merge_iff hc).mpr ((agree_merge_iff hb hab).mpr ⟨hca.symm, hbagree⟩)
    obtain ⟨d', hd'⟩ := hexists'
    have heq := (merge_assoc ha hb hc hab hbc hd').symm.trans hd
    exact ⟨ab, hab, hd'.trans heq⟩

/-- What has taken in a shape has taken in what that shape has. -/
theorem merge_absorb_trans (ha : a.Sorted) (hb : b.Sorted) (hc : c.Sorted)
    (hab : merge path a b = .ok a) (hbc : merge path b c = .ok b) :
    merge path a c = .ok a := by
  obtain ⟨a', ha', hmerge⟩ := (merge_assoc_iff ha hb hc).mpr ⟨b, hbc, hab⟩
  cases hab.symm.trans ha'
  exact hmerge

/-- A merge does not change when its right side is merged into it once more. -/
theorem merge_absorb_right (ha : a.Sorted) (hb : b.Sorted) (h : merge path a b = .ok ab) :
    merge path ab b = .ok ab := by
  obtain ⟨ab', hab', hmerge⟩ := (merge_assoc_iff ha hb hb).mpr ⟨b, merge_self hb, h⟩
  cases h.symm.trans hab'
  exact hmerge

end

/-! ### Elsewhere, and in another order -/

section

variable {order order' : MemberOrder} {other : List String}

/-- Merged members of one name do not depend on where they stand or on the order in which members
are walked, if merged shapes do not. -/
theorem mergeAt_of_mergeAt {x y m : Option Shape}
    (ih : ∀ a b ab, x = some a → y = some b → @merge order path a b = .ok ab →
      @merge order' other a b = .ok ab)
    (h : @mergeAt order path x y = .ok m) : @mergeAt order' other x y = .ok m := by
  obtain ⟨rfl, rfl⟩ | ⟨rfl, rfl⟩ | ⟨a, b, ab, rfl, rfl, rfl, hmerge⟩ :=
    @mergeAt_cases order _ _ _ _ h
  · rfl
  · exact mergeAt_none_right other m
  · exact mergeAt_some_some_eq_ok_iff.mpr ⟨ab, ih a b ab rfl rfl hmerge, rfl⟩

/-- Where two shapes stand is only told by the error, and so is the order of their members. -/
theorem merge_of_merge (ha : a.Sorted) (hb : b.Sorted) (h : @merge order path a b = .ok ab) :
    @merge order' other a b = .ok ab := by
  have hab := @sorted_merge order _ _ _ _ ha hb h
  induction a using Shape.induction generalizing path other b ab with
  | key => exact merge_key_eq_ok_iff.mpr ((@merge_key_eq_ok_iff order _ _ _).mp h)
  | object ms ih =>
    obtain ⟨ns, cs, rfl, rfl, -⟩ := (@merge_object_eq_ok_iff order _ _ _ _).mp h
    obtain ⟨hms, hold⟩ := sorted_object.mp ha
    obtain ⟨hns, hnew⟩ := sorted_object.mp hb
    obtain ⟨hcs, -⟩ := sorted_object.mp hab
    have hat := (@merge_object_iff_lookup path order _ _ _ hms hns hcs).mp h
    refine (merge_object_iff_lookup hms hns hcs).mpr fun name => ?_
    refine mergeAt_of_mergeAt (fun x y m hx hy hmerge => ?_) (hat name)
    have hmem := Keyed.mem_of_lookup hx
    have hy' := hnew _ (Keyed.mem_of_lookup hy)
    exact ih _ hmem (hold _ hmem) hy' hmerge (@sorted_merge order _ _ _ _ (hold _ hmem) hy' hmerge)
  | array es => exact merge_array_eq_ok_iff.mpr ((@merge_array_eq_ok_iff order _ _ _ _).mp h)

end

/-! ### The laws together -/

/-- Merging is an idempotent partial semigroup: wherever the shapes stand, three of them merge in
one grouping exactly when they do in the other, and to the same shape, elements in order; a shape
merged with itself stays as it is; and a merge takes in neither of its sides once more.  The members
of a shape are a map, which is what `Sorted` says of their list, and merging keeps it one. -/
theorem merge_partial_semigroup [MemberOrder] (ha : a.Sorted) (hb : b.Sorted) (hc : c.Sorted) :
    (∀ p q r s d,
      (∃ ab, merge p a b = .ok ab ∧ merge q ab c = .ok d) ↔
        ∃ bc, merge r b c = .ok bc ∧ merge s a bc = .ok d) ∧
    (∀ p, merge p a a = .ok a) ∧
    ∀ p q r m, merge p a b = .ok m → m.Sorted ∧ merge q m a = .ok m ∧ merge r m b = .ok m := by
  refine ⟨fun p q r s d => ?_, fun p => merge_self ha, fun p q r m h => ?_⟩
  · constructor
    · rintro ⟨ab, hab, hd⟩
      have hd' : merge p ab c = .ok d := merge_of_merge (sorted_merge ha hb hab) hc hd
      obtain ⟨bc, hbc, habc⟩ := (merge_assoc_iff ha hb hc).mp ⟨ab, hab, hd'⟩
      exact ⟨bc, merge_of_merge hb hc hbc, merge_of_merge ha (sorted_merge hb hc hbc) habc⟩
    · rintro ⟨bc, hbc, hd⟩
      have hd' : merge r a bc = .ok d := merge_of_merge ha (sorted_merge hb hc hbc) hd
      obtain ⟨ab, hab, habc⟩ := (merge_assoc_iff ha hb hc).mpr ⟨bc, hbc, hd'⟩
      exact ⟨ab, merge_of_merge ha hb hab, merge_of_merge (sorted_merge ha hb hab) hc habc⟩
  · have hm := sorted_merge ha hb h
    exact ⟨hm, merge_of_merge hm ha (merge_absorb_left ha hb h),
      merge_of_merge hm hb (merge_absorb_right ha hb h)⟩

/-- Objects that share one array, with an element that it has twice, in different orders. -/
theorem merge_partial_semigroup_repeated :
    let e : Shape := .object [("e", .key)]
    let f : Shape := .object [("f", .key)]
    let a : Shape := .object [("x", .array [e, e])]
    let b : Shape := .object [("x", .array [f, e]), ("y", .key)]
    let c : Shape := .object [("x", .array [.array [], f]), ("z", .array [])]
    let abc : Shape := .object [("x", .array [e, e, f, .array []]), ("y", .key), ("z", .array [])]
    a.Sorted ∧ b.Sorted ∧ c.Sorted ∧
      (∃ ab, merge [] a b = .ok ab ∧ merge ["k"] ab c = .ok abc ∧
        merge [] ab a = .ok ab ∧ merge ["k"] ab b = .ok ab) ∧
      (∃ bc, merge ["k"] b c = .ok bc ∧ merge [] a bc = .ok abc) ∧ merge [] a a = .ok a := by
  intro e f a b c abc
  have ha : a.Sorted := by simp [a, e, Keyed.Sorted]
  have hb : b.Sorted := sorted_object.mpr ⟨by decide +kernel, by simp [e, f, Keyed.Sorted]⟩
  have hc : c.Sorted := sorted_object.mpr ⟨by decide +kernel, by simp [f, Keyed.Sorted]⟩
  obtain ⟨hassoc, hself, habsorb⟩ := merge_partial_semigroup ha hb hc
  have hab : merge [] a b = .ok (.object [("x", .array [e, e, f]), ("y", .key)]) := by
    decide +kernel
  have habc : merge ["k"] (.object [("x", .array [e, e, f]), ("y", .key)]) c = .ok abc := by
    decide +kernel
  obtain ⟨-, hleft, hright⟩ := habsorb [] [] ["k"] _ hab
  exact ⟨ha, hb, hc, ⟨_, hab, habc, hleft, hright⟩,
    (hassoc [] ["k"] ["k"] [] abc).mp ⟨_, hab, habc⟩, hself []⟩

/-! ### Many shapes -/

namespace MergeAll

variable [MemberOrder] {shapes more : List Shape}

theorem cons_iff : MergeAll a (b :: shapes) c ↔ ∃ m, merge [] a b = .ok m ∧ MergeAll m shapes c := by
  constructor
  · intro h
    cases h with
    | cons hmerge hmore => exact ⟨_, hmerge, hmore⟩
  · rintro ⟨m, hmerge, hmore⟩
    exact .cons hmerge hmore

@[simp] theorem nil_iff : MergeAll a [] c ↔ a = c := by
  constructor
  · intro h
    cases h
    rfl
  · rintro rfl
    exact .nil a

/-- Shapes merge to one shape only. -/
theorem unique (h : MergeAll a shapes c) (h' : MergeAll a shapes d) : c = d := by
  induction h with
  | nil s => exact nil_iff.mp h'
  | cons hmerge _ ih =>
    obtain ⟨m, hmerge', hmore⟩ := cons_iff.mp h'
    cases hmerge.symm.trans hmerge'
    exact ih hmore

theorem append_iff :
    MergeAll a (shapes ++ more) c ↔ ∃ m, MergeAll a shapes m ∧ MergeAll m more c := by
  induction shapes generalizing a with
  | nil => simp
  | cons b shapes ih =>
    rw [List.cons_append, cons_iff]
    simp only [ih, cons_iff]
    constructor
    · rintro ⟨m, hmerge, n, hshapes, hmore⟩
      exact ⟨n, ⟨m, hmerge, hshapes⟩, hmore⟩
    · rintro ⟨n, ⟨m, hmerge, hshapes⟩, hmore⟩
      exact ⟨m, hmerge, n, hshapes, hmore⟩

/-- The first of many shapes may be merged last, with all the others at once. -/
theorem cons_iff_rest (ha : a.Sorted) (hb : b.Sorted) (hshapes : ∀ s ∈ shapes, s.Sorted) :
    MergeAll a (b :: shapes) c ↔ ∃ rest, MergeAll b shapes rest ∧ merge [] a rest = .ok c := by
  induction shapes generalizing a b c with
  | nil => simp [cons_iff]
  | cons next shapes ih =>
    obtain ⟨hnext, hrest⟩ := List.forall_mem_cons.mp hshapes
    constructor
    · intro h
      obtain ⟨m, hm, h⟩ := cons_iff.mp h
      obtain ⟨rest, hall, hlast⟩ := (ih (sorted_merge ha hb hm) hnext hrest).mp h
      obtain ⟨bc, hbc, hc⟩ :=
        (merge_assoc_iff ha hb (hall.sorted hnext hrest)).mp ⟨m, hm, hlast⟩
      exact ⟨bc, (ih hb hnext hrest).mpr ⟨rest, hall, hbc⟩, hc⟩
    · rintro ⟨bc, h, hc⟩
      obtain ⟨rest, hall, hbc⟩ := (ih hb hnext hrest).mp h
      obtain ⟨m, hm, hlast⟩ :=
        (merge_assoc_iff ha hb (hall.sorted hnext hrest)).mpr ⟨bc, hbc, hc⟩
      exact cons_iff.mpr ⟨m, hm, (ih (sorted_merge ha hb hm) hnext hrest).mpr ⟨rest, hall, hlast⟩⟩

/-- Many shapes merged do not change when one of them is merged in once more. -/
theorem absorb (h : MergeAll a shapes c) (ha : a.Sorted) (hshapes : ∀ s ∈ shapes, s.Sorted) :
    ∀ s ∈ a :: shapes, merge [] c s = .ok c := by
  induction h with
  | nil a =>
    intro s hs
    rw [List.mem_singleton.mp hs]
    exact merge_self ha
  | @cons a b m c shapes hmerge hmore ih =>
    obtain ⟨hb, hrest⟩ := List.forall_mem_cons.mp hshapes
    have hm := sorted_merge ha hb hmerge
    have hc := hmore.sorted hm hrest
    obtain ⟨hfirst, hothers⟩ := List.forall_mem_cons.mp (ih hm hrest)
    have hleft := merge_absorb_trans hc hm ha hfirst (merge_absorb_left ha hb hmerge)
    have hright := merge_absorb_trans hc hm hb hfirst (merge_absorb_right ha hb hmerge)
    exact List.forall_mem_cons.mpr ⟨hleft, List.forall_mem_cons.mpr ⟨hright, hothers⟩⟩

/-- Shapes listed again add nothing. -/
theorem map_ofList_iff {α : Type} [DecidableEq α] {shape : α → Shape} {items : List α}
    (ha : a.Sorted) (hitems : ∀ i ∈ items, (shape i).Sorted) :
    MergeAll a ((Distinct.ofList items).map shape) c ↔ MergeAll a (items.map shape) c := by
  induction items using List.reverseRecOn generalizing c with
  | nil => rfl
  | append_singleton items i ih =>
    have hsub : ∀ j ∈ items, (shape j).Sorted := fun j hj => hitems j (List.mem_append_left _ hj)
    rw [List.map_append, append_iff]
    simp only [← ih hsub, List.map_cons, List.map_nil, cons_iff, nil_iff, exists_eq_right]
    rw [Distinct.ofList_concat]
    by_cases hi : i ∈ Distinct.ofList items
    · -- the last shape has been merged before
      rw [Distinct.add_of_mem hi]
      have hmem : shape i ∈ a :: (Distinct.ofList items).map shape :=
        List.mem_cons_of_mem _ (List.mem_map_of_mem hi)
      have hsorted : ∀ s ∈ (Distinct.ofList items).map shape, s.Sorted :=
        List.forall_mem_map.mpr fun j hj => hsub j (Distinct.mem_ofList.mp hj)
      constructor
      · intro h
        exact ⟨c, h, h.absorb ha hsorted _ hmem⟩
      · rintro ⟨m, hm, hmerge⟩
        cases (hm.absorb ha hsorted _ hmem).symm.trans hmerge
        exact hm
    · rw [Distinct.add, if_neg hi, List.map_append, append_iff]
      simp only [List.map_cons, List.map_nil, cons_iff, nil_iff, exists_eq_right]

/-! ### Objects -/

variable {ms : List (String × Shape)}

/-- What merges to an object by itself is merged into another as that object. -/
theorem object_iff_merge {root : Shape} (hms : (object ms).Sorted)
    (hshapes : ∀ s ∈ shapes, s.Sorted) (h : MergeAll (object []) shapes root) :
    MergeAll (object ms) shapes c ↔ merge [] (object ms) root = .ok c := by
  have hnil : MergeAll (object ms) (object [] :: shapes) c ↔ MergeAll (object ms) shapes c := by
    rw [cons_iff, merge_object_nil_right]
    simp
  rw [← hnil, cons_iff_rest hms (by simp) hshapes]
  constructor
  · rintro ⟨rest, hall, hmerge⟩
    rwa [h.unique hall]
  · intro hmerge
    exact ⟨root, h, hmerge⟩

/-- Lists of shapes merged into one object, or each list by itself first. -/
theorem flatten_iff {lists : List (List Shape)} {roots : List Shape} (hms : (object ms).Sorted)
    (hsorted : ∀ shapes ∈ lists, ∀ s ∈ shapes, s.Sorted)
    (h : List.Forall₂ (fun shapes root => MergeAll (object []) shapes root) lists roots) :
    MergeAll (object ms) lists.flatten c ↔ MergeAll (object ms) roots c := by
  induction h generalizing ms with
  | nil => rfl
  | @cons shapes root lists roots hroot _ ih =>
    obtain ⟨hshapes, hrest⟩ := List.forall_mem_cons.mp hsorted
    have hsroot := hroot.sorted (by simp) hshapes
    -- the first list comes in as its root, and what is reached is an object again
    rw [List.flatten_cons, append_iff, cons_iff]
    refine exists_congr fun m => ?_
    rw [object_iff_merge hms hshapes hroot]
    refine and_congr_right fun hmerge => ?_
    obtain ⟨-, cs, -, rfl, -⟩ := merge_object_eq_ok_iff.mp hmerge
    exact ih (sorted_merge hms hsroot hmerge) hrest

end MergeAll

end Allowlist.Shape
