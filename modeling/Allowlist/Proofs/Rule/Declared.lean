import Allowlist.Proofs.Rule.Compile

/-!
# Proofs.Rule.Declared — the shapes that rules declare

Not every tree of shapes is the shape of a rule.  What a rule declares has its members in order and
under names that can be written, and each array has different elements none of which is a bare key.
Merging keeps this (`Declared.merge`), and so does every group that is built from declared parts,
so the shape of a derived text is declared and is no bare key (`declared_of_compile`).
-/

namespace Allowlist

namespace Shape

/-- A name that a rule can write, between quotes if need be. -/
structure IsName (name : String) : Prop where
  ne_nil : name.toList ≠ []
  chars : ∀ c ∈ name.toList, Rule.isQuotedChar c = true

/-- A shape with names that can be written, members in order, and different elements in each array,
none of them a bare key. -/
inductive Declared : Shape → Prop
  | key : Declared key
  | object {members : List (String × Shape)} : Keyed.Sorted members →
      (∀ m ∈ members, IsName m.1) → (∀ m ∈ members, Declared m.2) → Declared (object members)
  | array {elements : List Shape} : elements.Nodup → key ∉ elements →
      (∀ e ∈ elements, Declared e) → Declared (array elements)

theorem Declared.sorted {s : Shape} (h : s.Declared) : s.Sorted := by
  induction h with
  | key => exact sorted_key
  | object hms _ _ ih => exact sorted_object.mpr ⟨hms, ih⟩
  | array _ _ _ ih => exact sorted_array.mpr ih

theorem Declared.object_single {name : String} {s : Shape} (hname : IsName name)
    (hs : s.Declared) : (Shape.object [(name, s)]).Declared := by
  refine .object (by simp [Keyed.Sorted]) ?_ ?_
  · simpa using hname
  · simpa using hs

/-! ### Merging -/

/-- The merge of two declared shapes is declared. -/
theorem Declared.merge {path : List String} {a b c : Shape} (ha : a.Declared) (hb : b.Declared)
    (h : Shape.merge path a b = .ok c) : c.Declared := by
  induction ha generalizing path b c with
  | key =>
    obtain ⟨-, rfl⟩ := merge_key_eq_ok_iff.mp h
    exact .key
  | object hms hnames hold ih =>
    obtain ⟨ns, cs, rfl, rfl, hm⟩ := merge_object_eq_ok_iff.mp h
    cases hb with
    | object hns hnames' hnew =>
      have hcs := sorted_mergeMembers hms hm
      -- each member comes from the left, from the right, or is a merge of two
      have hmember : ∀ name s, (name, s) ∈ cs → IsName name ∧ s.Declared := by
        intro name s hmem
        have hat := mergeAt_lookup hns hm name
        rw [hcs.lookup_eq_some_iff.mpr hmem] at hat
        obtain ⟨-, hc⟩ | ⟨-, hc⟩ | ⟨old, new, m, hl, hr, hc, hmerge⟩ := mergeAt_cases hat
        · have hright := Keyed.mem_of_lookup hc.symm
          exact ⟨hnames' _ hright, hnew _ hright⟩
        · have hleft := Keyed.mem_of_lookup hc.symm
          exact ⟨hnames _ hleft, hold _ hleft⟩
        · cases hc
          have hleft := Keyed.mem_of_lookup hl
          exact ⟨hnames _ hleft, ih _ hleft (hnew _ (Keyed.mem_of_lookup hr)) hmerge⟩
      exact .object hcs (fun m hm => (hmember m.1 m.2 hm).1) fun m hm => (hmember m.1 m.2 hm).2
  | array hnodup hkey hold _ =>
    obtain ⟨fs, rfl, rfl, -⟩ := merge_array_eq_ok_iff.mp h
    cases hb with
    | array _ hkey' hnew =>
      refine .array (Distinct.nodup_extend hnodup) (fun hmem => ?_) fun e he => ?_
      · exact (Distinct.mem_extend.mp hmem).elim hkey hkey'
      · exact (Distinct.mem_extend.mp he).elim (hold e) (hnew e)

/-- A merge of two shapes is a bare key only if both are. -/
theorem ne_key_of_merge {path : List String} {a b c : Shape} (ha : a ≠ key)
    (h : Shape.merge path a b = .ok c) : c ≠ key := by
  obtain ⟨rfl, -⟩ | ⟨ms, ns, cs, -, -, rfl, -⟩ | ⟨es, fs, -, -, rfl, -⟩ := merge_cases h
  · exact absurd rfl ha
  · exact Shape.noConfusion
  · exact Shape.noConfusion

end Shape

namespace Rule

/-! ### Groups -/

/-- An entry with a name that can be written, if it has one, and a declared shape, which is a bare
key only under a name. -/
structure EntryDeclared (entry : Option String × Shape) : Prop where
  name : ∀ name, entry.1 = some name → Shape.IsName name
  shape : entry.2.Declared
  group : entry.1 = none → entry.2 ≠ .key

theorem declared_foldlM_declare? {entries : List (Option String × Shape)}
    {ms ms' : List (String × Shape)} (hms : (Shape.object ms).Declared)
    (hentries : ∀ e ∈ entries, EntryDeclared e) (h : entries.foldlM declare? ms = some ms') :
    (Shape.object ms').Declared := by
  induction entries generalizing ms with
  | nil =>
    cases h
    exact hms
  | cons e entries ih =>
    rw [List.foldlM_cons, Option.bind_eq_bind, Option.bind_eq_some_iff] at h
    obtain ⟨ms'', hdeclare, h⟩ := h
    obtain ⟨he, hrest⟩ := List.forall_mem_cons.mp hentries
    obtain ⟨name, hname, hmerge⟩ := declare?_eq_some_iff.mp hdeclare
    exact ih (hms.merge (.object_single (he.name name hname) he.shape) hmerge) hrest h

theorem EntryDeclared.element {entry : Option String × Shape} (h : EntryDeclared entry) :
    (elementOf entry).Declared ∧ elementOf entry ≠ .key := by
  obtain ⟨name?, shape⟩ := entry
  cases name? with
  | none => exact ⟨h.shape, h.group rfl⟩
  | some name => exact ⟨.object_single (h.name name rfl) h.shape, Shape.noConfusion⟩

/-- A group of declared entries is declared. -/
theorem declared_groupShape? {kind : GroupKind} {entries : List (Option String × Shape)}
    {s : Shape} (hentries : ∀ e ∈ entries, EntryDeclared e)
    (h : groupShape? kind entries = some s) : s.Declared ∧ s ≠ .key := by
  cases kind with
  | object =>
    obtain ⟨ms, hms, rfl⟩ := Option.map_eq_some_iff.mp h
    have hempty : (Shape.object []).Declared := .object Keyed.sorted_nil nofun nofun
    exact ⟨declared_foldlM_declare? hempty hentries hms, Shape.noConfusion⟩
  | array =>
    obtain rfl := Option.some.inj h
    have helement : ∀ e ∈ Distinct.ofList (entries.map elementOf), e.Declared ∧ e ≠ .key := by
      intro e he
      obtain ⟨entry, hmem, rfl⟩ := List.mem_map.mp (Distinct.mem_ofList.mp he)
      exact (hentries entry hmem).element
    refine ⟨.array (Distinct.nodup_ofList _) (fun hmem => ?_) fun e he => (helement e he).1,
      Shape.noConfusion⟩
    exact (helement _ hmem).2 rfl

/-! ### Derivations -/

theorem KeyText.isName {name : String} {k : List Char} (h : KeyText name k) :
    Shape.IsName name := by
  cases h with
  | bare hne hall => exact ⟨hne, fun c hc => isNameChar_of_isQuotedChar (hall c hc)⟩
  | quoted hne hall => exact ⟨hne, hall⟩

mutual
theorem GroupText.declared : {tree : Tree} → {u : List Char} → GroupText tree u →
    {s : Shape} → tree.denote? = some s → s.Declared ∧ s ≠ .key
  | _, _, .group hbody, s, h => by
    obtain ⟨shapes, hshapes, hgroup⟩ := Tree.denote?_group_eq_some_iff.mp h
    exact declared_groupShape? (hbody.declared hshapes) hgroup

theorem BodyText.declared : {kind : GroupKind} → {entries : List (Option String × Tree)} →
    {text : List Char} → BodyText kind entries text → {shapes : List (Option String × Shape)} →
    Tree.denoteEntries? entries = some shapes → ∀ e ∈ shapes, EntryDeclared e
  | _, _, _, .blank _, shapes, h => by
    cases h
    exact nofun
  | _, _, _, .entries hentries, shapes, h => hentries.declared h

theorem EntriesText.declared : {kind : GroupKind} → {entries : List (Option String × Tree)} →
    {text : List Char} → EntriesText kind entries text → {shapes : List (Option String × Shape)} →
    Tree.denoteEntries? entries = some shapes → ∀ e ∈ shapes, EntryDeclared e
  | _, _, _, .one hentry, shapes, h => by
    obtain ⟨shape, rest, hshape, hrest, rfl⟩ := Tree.denoteEntries?_cons_eq_some_iff.mp h
    cases hrest
    exact List.forall_mem_singleton.mpr (hentry.declared hshape)
  | _, _, _, .cons hentry hmore, shapes, h => by
    obtain ⟨shape, rest, hshape, hrest, rfl⟩ := Tree.denoteEntries?_cons_eq_some_iff.mp h
    exact List.forall_mem_cons.mpr ⟨hentry.declared hshape, hmore.declared hrest⟩

theorem EntryText.declared : {kind : GroupKind} → {entry : Option String × Tree} →
    {text : List Char} → EntryText kind entry text → {shape : Shape} →
    entry.2.denote? = some shape → EntryDeclared (entry.1, shape)
  | _, _, _, .key _ hk _, shape, h => by
    cases h
    exact ⟨fun name he => Option.some.inj he ▸ hk.isName, .key, nofun⟩
  | _, _, _, .keyed _ hk _ _ hu _, shape, h =>
    ⟨fun name he => Option.some.inj he ▸ hk.isName, (hu.declared h).1, nofun⟩
  | _, _, _, .alone _ hu _, shape, h => ⟨nofun, (hu.declared h).1, fun _ => (hu.declared h).2⟩
end

theorem Spells.declared {tree : Tree} {rule : List Char} {s : Shape} (h : Spells tree rule)
    (htree : tree.denote? = some s) : s.Declared ∧ s ≠ .key := by
  cases h with
  | group _ hu _ => exact hu.declared htree
  | entries htexts =>
    obtain ⟨shapes, hshapes, hgroup⟩ := Tree.denote?_group_eq_some_iff.mp htree
    exact declared_groupShape? (htexts.declared hshapes) hgroup

/-- A compiled shape is declared, is no bare key, and is not nested too deeply. -/
theorem declared_of_compile {rule : String} {shape : Shape} (h : compile rule = .ok shape) :
    shape.Declared ∧ shape ≠ .key ∧ shape.depth ≤ maxDepth := by
  obtain ⟨-, tree, hspells, htree, hdepth⟩ := exists_tree_of_compile h
  obtain ⟨hdeclared, hne⟩ := hspells.declared htree
  exact ⟨hdeclared, hne, hdepth⟩

end Rule

end Allowlist
