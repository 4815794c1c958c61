import Allowlist.Proofs.Shape.Agree

/-!
# Proofs.Shape.Conflict — where two shapes conflict

A merge that fails names a path.  It is the path at which the merge was begun, and behind it the
names under which both shapes were followed to the place where they differ in kind, in whatever
order members are walked (`exists_differ_of_merge_error`).  Of several such places the order chooses
one, and for each of them there is an order that does (`exists_order_iff_differ`).
-/

namespace Allowlist.Shape

/-- The shapes have different kinds where the names lead to. -/
def Differ (names : List String) (a b : Shape) : Prop :=
  ∃ k l, k ≠ l ∧ a.kindAt? names = some k ∧ b.kindAt? names = some l

theorem differ_nil {a b : Shape} (h : a.kind ≠ b.kind) : Differ [] a b :=
  ⟨a.kind, b.kind, h, kindAt?_nil a, kindAt?_nil b⟩

theorem Differ.member {name : String} {names : List String} {ms ns : List (String × Shape)}
    {old new : Shape} (h : Differ names old new) (hold : ms.lookup name = some old)
    (hnew : ns.lookup name = some new) : Differ (name :: names) (object ms) (object ns) := by
  obtain ⟨k, l, hne, hk, hl⟩ := h
  exact ⟨k, l, hne, by rw [kindAt?_object_cons, hold]; exact hk,
    by rw [kindAt?_object_cons, hnew]; exact hl⟩

/-- Only objects have anything behind a name, and a difference there is one of two members. -/
theorem Differ.exists_member {name : String} {names : List String} {a b : Shape}
    (h : Differ (name :: names) a b) :
    ∃ ms ns old new, a = object ms ∧ b = object ns ∧ ms.lookup name = some old ∧
      ns.lookup name = some new ∧ Differ names old new := by
  obtain ⟨k, l, hne, hk, hl⟩ := h
  cases a with
  | key => cases hk
  | array es => cases hk
  | object ms =>
    cases b with
    | key => cases hl
    | array fs => cases hl
    | object ns =>
      obtain ⟨old, hold, hk⟩ := Option.bind_eq_some_iff.mp hk
      obtain ⟨new, hnew, hl⟩ := Option.bind_eq_some_iff.mp hl
      exact ⟨ms, ns, old, new, rfl, rfl, hold, hnew, k, l, hne, hk, hl⟩

/-- An array is an array of values or of elements, and never of another kind. -/
theorem kind_array_ne (es : List Shape) : (array es).kind ≠ .key ∧ (array es).kind ≠ .object := by
  cases es <;> simp [kind]

theorem isEmpty_eq_iff {es fs : List Shape} :
    es.isEmpty = fs.isEmpty ↔ (array es).kind = (array fs).kind := by
  rw [kind_array_eq_iff, Bool.eq_iff_iff, List.isEmpty_iff, List.isEmpty_iff]

/-! ### What is named is a difference -/

section

variable [MemberOrder]

/-- Shapes of different kinds conflict where they stand. -/
theorem merge_of_kind_ne {path : List String} {a b : Shape} (h : a.kind ≠ b.kind) :
    merge path a b = .error path := by
  cases a with
  | key =>
    cases b with
    | key => exact absurd rfl h
    | object ns => simp [merge]
    | array fs => simp [merge]
  | object ms =>
    cases b with
    | key => simp [merge]
    | object ns => exact absurd rfl h
    | array fs => simp [merge]
  | array es =>
    cases b with
    | key => simp [merge]
    | object ns => simp [merge]
    | array fs => rw [merge, if_neg (mt isEmpty_eq_iff.mp h)]

/-- A merge fails because of the kinds of its shapes, or because of two members. -/
theorem merge_error_cases {at? path : List String} {a b : Shape}
    (h : merge at? a b = .error path) :
    (a.kind ≠ b.kind ∧ path = at?) ∨
      ∃ ms ns, a = object ms ∧ b = object ns ∧
        mergeMembers at? ms (MemberOrder.arrange at? ns) = .error path := by
  by_cases hkind : a.kind = b.kind
  · cases a with
    | key =>
      cases b with
      | key =>
        rw [merge] at h
        cases h
      | object ns => cases hkind
      | array fs => exact absurd hkind.symm (kind_array_ne fs).1
    | object ms =>
      cases b with
      | key => cases hkind
      | object ns =>
        rw [merge, Outcome.map_eq_error_iff] at h
        exact .inr ⟨ms, ns, rfl, rfl, h⟩
      | array fs => exact absurd hkind.symm (kind_array_ne fs).2
    | array es =>
      cases b with
      | key => exact absurd hkind (kind_array_ne es).1
      | object ns => exact absurd hkind (kind_array_ne es).2
      | array fs =>
        rw [merge, if_pos (isEmpty_eq_iff.mpr hkind)] at h
        cases h
  · rw [merge_of_kind_ne hkind] at h
    exact .inl ⟨hkind, (Except.error.inj h).symm⟩

/-- A conflict of members, in whatever order, is one under a name that both sides have. -/
theorem exists_member_of_mergeMembers_error {at? path : List String} {ms ns : List (String × Shape)}
    (hns : (ns.map Prod.fst).Nodup) (h : mergeMembers at? ms ns = .error path) :
    ∃ name old new, ms.lookup name = some old ∧ ns.lookup name = some new ∧
      merge (at? ++ [name]) old new = .error path := by
  induction ns generalizing ms with
  | nil =>
    rw [mergeMembers_nil] at h
    cases h
  | cons n ns ih =>
    obtain ⟨k, s⟩ := n
    obtain ⟨hfirst, hns⟩ := List.nodup_cons.mp hns
    rw [mergeMembers_cons] at h
    cases hadd : addMember at? ms k s with
    | ok ms' =>
      rw [hadd] at h
      obtain ⟨merged, -, rfl⟩ := addMember_eq_ok_iff.mp hadd
      obtain ⟨name, old, new, hold, hnew, hmerge⟩ := ih hns h
      have hne : name ≠ k := by
        rintro rfl
        exact hfirst (List.mem_map.mpr ⟨_, Keyed.mem_of_lookup hnew, rfl⟩)
      rw [Keyed.lookup_insert_of_ne hne] at hold
      exact ⟨name, old, new, hold, by rw [List.lookup_cons, beq_false_of_ne hne, hnew], hmerge⟩
    | error path' =>
      rw [hadd] at h
      cases h
      obtain ⟨old, hold, hmerge⟩ := addMember_eq_error_iff.mp hadd
      exact ⟨k, old, s, hold, List.lookup_cons_self, hmerge⟩

/-- What a failed merge names leads on from where the shapes stand, through objects that both have,
to a place at which they differ. -/
theorem exists_differ_of_merge_error {at? path : List String} {a b : Shape} (hb : b.Sorted)
    (h : merge at? a b = .error path) : ∃ names, path = at? ++ names ∧ Differ names a b := by
  induction a using Shape.induction generalizing at? path b with
  | key =>
    obtain ⟨hkind, rfl⟩ | ⟨ms, ns, ha, -, -⟩ := merge_error_cases h
    · exact ⟨[], (List.append_nil _).symm, differ_nil hkind⟩
    · cases ha
  | object ms ih =>
    obtain ⟨hkind, rfl⟩ | ⟨_, ns, ha, rfl, hmembers⟩ := merge_error_cases h
    · exact ⟨[], (List.append_nil _).symm, differ_nil hkind⟩
    · cases ha
      obtain ⟨hns, hsub⟩ := sorted_object.mp hb
      obtain ⟨name, old, new, hold, hnew, hmerge⟩ :=
        exists_member_of_mergeMembers_error (nodup_arrange hns at?) hmembers
      rw [lookup_arrange hns] at hnew
      obtain ⟨names, rfl, hdiffer⟩ :=
        ih _ (Keyed.mem_of_lookup hold) (hsub _ (Keyed.mem_of_lookup hnew)) hmerge
      exact ⟨name :: names, by simp, hdiffer.member hold hnew⟩
  | array es =>
    obtain ⟨hkind, rfl⟩ | ⟨ms, ns, ha, -, -⟩ := merge_error_cases h
    · exact ⟨[], (List.append_nil _).symm, differ_nil hkind⟩
    · cases ha

/-- The member that is walked first is the first to conflict. -/
theorem merge_of_arrange {at? path : List String} {ms ns rest : List (String × Shape)}
    {name : String} {old new : Shape} (hfirst : MemberOrder.arrange at? ns = (name, new) :: rest)
    (hold : ms.lookup name = some old) (hmerge : merge (at? ++ [name]) old new = .error path) :
    merge at? (object ms) (object ns) = .error path := by
  rw [merge, hfirst, mergeMembers_cons, addMember_eq_error_iff.mpr ⟨old, hold, hmerge⟩]
  rfl

end

/-! ### Every difference can be named -/

/-- The order in which members that lie on the way of the names come first. -/
@[reducible] def MemberOrder.toward (names : List String) : MemberOrder where
  arrange path members :=
    members.filter (fun m => (names.drop path.length).head? == some m.1) ++
      members.filter fun m => !((names.drop path.length).head? == some m.1)
  perm _ members := List.filter_append_perm _ members

theorem exists_arrange_toward (front names : List String) {name : String}
    {ns : List (String × Shape)} {new : Shape} (hnew : ns.lookup name = some new) :
    ∃ rest, (MemberOrder.toward (front ++ name :: names)).arrange front ns =
      (name, new) :: rest := by
  obtain ⟨before, behind, rfl, hbefore⟩ := List.lookup_eq_some_iff.mp hnew
  have hnext : ((front ++ name :: names).drop front.length).head? = some name := by
    rw [List.drop_left, List.head?_cons]
  have hskip : before.filter (fun m => some name == some m.1) = [] := by
    rw [List.filter_eq_nil_iff]
    intro m hm
    simpa using hbefore m hm
  unfold MemberOrder.arrange
  dsimp only
  rw [hnext, List.filter_append, hskip, List.nil_append, List.filter_cons_of_pos (by simp),
    List.cons_append]
  exact ⟨_, rfl⟩

/-- Wherever shapes differ, there is an order in which this is the place that is named. -/
theorem merge_toward {front names : List String} {a b : Shape} (h : Differ names a b) :
    @merge (.toward (front ++ names)) front a b = .error (front ++ names) := by
  induction names generalizing front a b with
  | nil =>
    obtain ⟨k, l, hne, hk, hl⟩ := h
    rw [kindAt?_nil, Option.some.injEq] at hk hl
    have hkind : a.kind ≠ b.kind := by rwa [hk, hl]
    rw [List.append_nil]
    exact @merge_of_kind_ne (.toward front) _ _ _ hkind
  | cons name names ih =>
    obtain ⟨ms, ns, old, new, rfl, rfl, hold, hnew, hdiffer⟩ := h.exists_member
    obtain ⟨rest, hrest⟩ := exists_arrange_toward front names hnew
    have hmember := @ih (front ++ [name]) old new hdiffer
    rw [List.append_assoc, List.singleton_append] at hmember
    exact @merge_of_arrange (.toward _) _ _ _ _ _ _ _ _ hrest hold hmember

/-- The places that are named in some order are those at which the shapes differ. -/
theorem exists_order_iff_differ {a b : Shape} {names : List String} (hb : b.Sorted) :
    (∃ order : MemberOrder, @merge order [] a b = .error names) ↔ Differ names a b := by
  constructor
  · rintro ⟨order, h⟩
    obtain ⟨_, rfl, hdiffer⟩ := @exists_differ_of_merge_error order _ _ _ _ hb h
    exact hdiffer
  · exact fun h => ⟨.toward names, merge_toward h⟩

end Allowlist.Shape
