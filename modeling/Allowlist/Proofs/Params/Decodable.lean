import Allowlist.Proofs.Params.Rooted

/-!
# Proofs.Params.Decodable — rules whose permitted keys always make a document

Keys conflict when they make two things of one slot.  A shape with at most one element shape in each
array says of every slot what it is: hops that it accepts reach one part of it wherever they spell
the same steps, so they go on alike from there.  Of two accepted keys that conflict, both therefore
end where they part, and they spell one address (`SingleElement.eq_of_conflict`).  Under such a shape
the kept keys make a document, unless two of them have one address or a number is too great
(`exists_document_of_filter`).
-/

namespace Allowlist

/-! ### Steps of accepted hops -/

/-- A hop that names a member spells the step into it. -/
theorem Hop.reading_of_member? {hop : Hop} {name : String} (h : hop.member? = some name) :
    hop.reading = .member name := by
  obtain ⟨htext, hdecimal⟩ := Hop.member?_eq_some_iff.mp h
  rw [Hop.reading, htext]
  dsimp only
  rw [hdecimal, if_neg Bool.false_ne_true]

/-- A hop that an array reads spells a position, or appends. -/
theorem Hop.isMember_reading_of_isElement {hop : Hop} (h : hop.isElement = true) :
    hop.reading.isMember = false := by
  unfold Hop.reading
  cases htext : hop.text? with
  | none => rfl
  | some text =>
    have hdecimal : isDecimal text = true := by
      rw [← (Hop.of_text? htext).2]
      exact h
    dsimp only
    rw [if_pos hdecimal]
    rfl

namespace Shape

/-- At most one element shape in each array of the shape. -/
inductive SingleElement : Shape → Prop
  | key : SingleElement key
  | object {members : List (String × Shape)} :
      (∀ m ∈ members, SingleElement m.2) → SingleElement (object members)
  | array {elements : List Shape} :
      elements.length ≤ 1 → (∀ e ∈ elements, SingleElement e) → SingleElement (array elements)

/-- Accepted hops whose steps conflict spell one list of steps, without appending. -/
theorem SingleElement.eq_of_conflict {s : Shape} (h : s.SingleElement) {as bs : List Hop}
    (ha : s.accepts as = true) (hb : s.accepts bs = true)
    (hconflict : Step.Conflict (as.map Hop.reading) (bs.map Hop.reading)) :
    as.map Hop.reading = bs.map Hop.reading ∧ .append ∉ as.map Hop.reading := by
  induction h generalizing as bs with
  | key =>
    obtain rfl : as = [] := List.isEmpty_iff.mp ha
    obtain rfl : bs = [] := List.isEmpty_iff.mp hb
    exact ⟨rfl, List.not_mem_nil⟩
  | @object members _ ih =>
    cases as with
    | nil => cases ha
    | cons a as =>
      cases bs with
      | nil => cases hb
      | cons b bs =>
        rw [accepts_object_cons] at ha hb
        obtain ⟨m, hm, ha⟩ := (Option.any_eq_true _ _).mp ha
        obtain ⟨n, hn, hb⟩ := (Option.any_eq_true _ _).mp hb
        obtain ⟨s, hs, ha⟩ := (Option.any_eq_true _ _).mp ha
        obtain ⟨t, ht, hb⟩ := (Option.any_eq_true _ _).mp hb
        simp only [List.map_cons, Hop.reading_of_member? hm, Hop.reading_of_member? hn]
          at hconflict ⊢
        by_cases hmn : m = n
        · subst hmn
          cases hs.symm.trans ht
          rw [Step.conflict_cons_self (by simp)] at hconflict
          obtain ⟨heq, happend⟩ := ih _ (Keyed.mem_of_lookup hs) ha hb hconflict
          exact ⟨by rw [heq], by simpa using happend⟩
        · rw [Step.conflict_cons_of_ne (.inl (by simpa using hmn))] at hconflict
          exact absurd rfl hconflict
  | @array elements hlength _ ih =>
    cases as with
    | nil => cases elements <;> cases ha
    | cons a as =>
      cases bs with
      | nil => cases elements <;> cases hb
      | cons b bs =>
        rw [accepts_array_cons, Bool.and_eq_true] at ha hb
        obtain ⟨helement, ha⟩ := ha
        obtain ⟨helement', hb⟩ := hb
        have hmember := Hop.isMember_reading_of_isElement helement
        have hmember' := Hop.isMember_reading_of_isElement helement'
        rw [List.map_cons, List.map_cons] at hconflict ⊢
        -- two elements never conflict by themselves, so they are one position
        by_cases hstep : a.reading ≠ b.reading ∨ a.reading = .append
        · rw [Step.conflict_cons_of_ne hstep, hmember, hmember'] at hconflict
          exact absurd rfl hconflict
        · obtain ⟨hstep, happend⟩ := not_or.mp hstep
          rw [not_not] at hstep
          rw [← hstep, Step.conflict_cons_self happend] at hconflict
          suffices hrest : as.map Hop.reading = bs.map Hop.reading ∧
              .append ∉ as.map Hop.reading by
            rw [← hstep, hrest.1]
            refine ⟨rfl, ?_⟩
            rw [← hrest.1, List.mem_cons, not_or]
            exact ⟨Ne.symm happend, hrest.2⟩
          match elements, hlength with
          | [], _ =>
            rw [if_pos rfl] at ha hb
            obtain rfl : as = [] := List.isEmpty_iff.mp ha
            obtain rfl : bs = [] := List.isEmpty_iff.mp hb
            exact ⟨rfl, List.not_mem_nil⟩
          | [e], _ =>
            rw [if_neg (List.cons_ne_nil _ _), Bool.and_eq_true, List.any_cons, List.any_nil,
              Bool.or_false] at ha hb
            exact ih e (List.mem_singleton_self e) ha.2 hb.2 hconflict

end Shape

/-! ### Keys that end in a marker -/

namespace Path

theorem GroupsText.anonymous_mem {cs : List Char} {hops : List Hop} (h : GroupsText cs hops)
    (hsuffix : ['[', ']'] <:+ cs) : .anonymous ∈ hops := by
  induction h with
  | nil => exact absurd (List.suffix_nil.mp hsuffix) (List.cons_ne_nil _ _)
  | anonymous => exact List.mem_singleton_self _
  | @bracket text rest hops htext _ ih =>
    obtain ⟨front, hfront⟩ := hsuffix
    cases front with
    | nil =>
      have htail := (List.cons.inj hfront).2
      cases text with
      | nil => exact absurd rfl htext.ne_nil
      | cons c text =>
        -- the text would start with the closing bracket
        obtain ⟨rfl, -⟩ := List.cons.inj htail
        exact absurd List.mem_cons_self (close_notMem htext.plain)
    | cons c front =>
      have hinside : (text ++ [']']) ++ rest = front ++ '[' :: [']'] := by
        simpa using (List.cons.inj hfront).2.symm
      have hopen : '[' ∉ text ++ [']'] := by simpa using open_notMem htext.plain
      obtain ⟨inner, -, rfl⟩ := Cut.behind_of_notMem hopen hinside
      exact List.mem_cons_of_mem _ (ih (List.suffix_append _ _))

/-- A path that ends in `[]` ends in an anonymous hop. -/
theorem PathText.anonymous_mem {cs : List Char} {hops : List Hop} (h : PathText cs hops)
    (hsuffix : ['[', ']'] <:+ cs) : .anonymous ∈ hops := by
  cases h with
  | groups _ hgroups => exact hgroups.anonymous_mem hsuffix
  | head htext hgroups =>
    obtain ⟨front, hfront⟩ := hsuffix
    obtain ⟨inner, -, rfl⟩ := Cut.behind_of_notMem (open_notMem htext.plain) hfront.symm
    exact List.mem_cons_of_mem _ (hgroups.anonymous_mem (List.suffix_append _ _))

end Path

namespace Params

open Allowlist.Path

/-- Keys that join in turn make a document. -/
theorem exists_document_of_joinInTurn {values : Values}
    (h : Document.JoinInTurn values.keys) :
    ∃ document, Document.ofValues values = .ok document := by
  obtain ⟨-, root, hroot, -⟩ | ⟨front, key, back, hkeys, -, hnot, -⟩ :=
    Document.slots_cases values.entries
  · exact Document.ofValues_of_slots hroot
  · exact absurd (h front key back hkeys) hnot

/-- Under rules with at most one element shape in each array, the kept keys make a document, if no
two of them that end in a member or a position have one address, and every number fits.  Decoding
then never fails for a path. -/
theorem exists_document_of_filter {params : Params} {set : RuleSet} {values filtered : Values}
    (hrules : params.rules = some set) (hsingle : set.root.SingleElement)
    (hfilter : params.filter values = .ok filtered)
    (haddress : ∀ a ∈ filtered.keys, ∀ b ∈ filtered.keys, a ≠ b →
      ¬ ['[', ']'] <:+ a.toList → ¬ ['[', ']'] <:+ b.toList → steps? a ≠ steps? b)
    (hfits : ∀ key ∈ filtered.keys, ∀ steps ∈ steps? key, ∀ step ∈ steps, step.Fits) :
    (∃ document, Document.ofValues filtered = .ok document) ∧
      ∀ schema error, params.decode schema values ≠ .error (.document error) := by
  have haccepts : ∀ key ∈ filtered.keys, ∃ hops, tokenize? key = some hops ∧
      set.root.accepts hops = true := by
    intro key hkey
    obtain ⟨source, -, hkept⟩ := (mem_keys_filter_iff hfilter).mp hkey
    exact exists_hops_of_allows hrules (keptAs?_eq_some_iff.mp hkept).2
  have hnodup : filtered.keys.Nodup := (sorted_filter hfilter).nodup_keys
  have hjoin : Document.JoinInTurn filtered.keys := by
    rw [Document.joinInTurn_iff hnodup]
    constructor
    · intro key hkey
      obtain ⟨hops, htokens, -⟩ := haccepts key hkey
      have hsteps : steps? key = some (hops.map Hop.reading) := by rw [steps?, htokens]; rfl
      exact ⟨_, hsteps, hfits key hkey _ hsteps⟩
    · rintro a ha b hb hne ⟨as, bs, has, hbs, hconflict⟩
      obtain ⟨hops, htokens, hhops⟩ := haccepts a ha
      obtain ⟨hops', htokens', hhops'⟩ := haccepts b hb
      rw [steps?, htokens, Option.map_some, Option.some.injEq] at has
      rw [steps?, htokens', Option.map_some, Option.some.injEq] at hbs
      subst has hbs
      obtain ⟨heq, happend⟩ := hsingle.eq_of_conflict hhops hhops' hconflict
      have hmarker : ∀ key hops, tokenize? key = some hops → .append ∉ hops.map Hop.reading →
          ¬ ['[', ']'] <:+ key.toList := by
        intro key hops htokens hnot hsuffix
        have hmem := (tokenize?_eq_some_iff.mp htokens).anonymous_mem hsuffix
        exact hnot (List.mem_map_of_mem (f := Hop.reading) hmem)
      refine haddress a ha b hb hne (hmarker a hops htokens happend)
        (hmarker b hops' htokens' (heq ▸ happend)) ?_
      rw [steps?, steps?, htokens, htokens', Option.map_some, Option.map_some, heq]
  obtain ⟨document, hdocument⟩ := exists_document_of_joinInTurn hjoin
  refine ⟨⟨document, hdocument⟩, fun schema error herror => ?_⟩
  rw [decode_eq_of_filter hfilter, decodeValues_eq_document_error_iff, hdocument] at herror
  cases herror

/-- Numbers of two digits before numbers of one, a position beside appended values, and a key that is
dropped: the four keys that are kept make a document, with the elements in the order of their
numbers. -/
theorem exists_document_of_filter_interleaved :
    let set : RuleSet :=
      ⟨.object [("k", .array [.object [("a", .key)]]), ("t", .array [])], ["k:[a], t:[]"]⟩
    let values : Values := ⟨[("r[k][10][a]", ["x"]), ("r[k][2][a]", ["y"]), ("r[t][3]", ["u"]),
      ("r[t][]", ["v", "w"]), ("r[z]", ["d"])]⟩
    let filtered : Values :=
      ⟨[("k[10][a]", ["x"]), ("k[2][a]", ["y"]), ("t[3]", ["u"]), ("t[]", ["v", "w"])]⟩
    ofConfig ⟨some "r", ["k:[a], t:[]"]⟩ = .ok ⟨some "r", some set⟩ ∧ set.root.SingleElement ∧
      filter ⟨some "r", some set⟩ values = .ok filtered ∧
      (∀ a ∈ filtered.keys, ∀ b ∈ filtered.keys, a ≠ b →
        ¬ ['[', ']'] <:+ a.toList → ¬ ['[', ']'] <:+ b.toList → steps? a ≠ steps? b) ∧
      (∀ key ∈ filtered.keys, ∀ steps ∈ steps? key, ∀ step ∈ steps, step.Fits) ∧
      Document.ofValues filtered = .ok (.object
        [("k", .list [.object [("a", .text "y")], .object [("a", .text "x")]]),
          ("t", .list [.text "u", .text "v", .text "w"])]) ∧
      ∀ schema error, decode ⟨some "r", some set⟩ schema values ≠ .error (.document error) := by
  intro set values filtered
  have hconfig : ofConfig ⟨some "r", ["k:[a], t:[]"]⟩ = .ok ⟨some "r", some set⟩ := by
    decide +kernel
  have hobject : (Shape.object [("a", .key)]).SingleElement :=
    .object (List.forall_mem_singleton.mpr .key)
  have hsingle : set.root.SingleElement := by
    refine .object (List.forall_mem_cons.mpr ⟨.array le_rfl ?_, ?_⟩)
    · exact List.forall_mem_singleton.mpr hobject
    · exact List.forall_mem_singleton.mpr (.array (Nat.zero_le 1) nofun)
  have hfilter : filter ⟨some "r", some set⟩ values = .ok filtered := by decide +kernel
  have haddress : ∀ a ∈ filtered.keys, ∀ b ∈ filtered.keys, a ≠ b →
      ¬ ['[', ']'] <:+ a.toList → ¬ ['[', ']'] <:+ b.toList → steps? a ≠ steps? b := by
    decide +kernel
  have hfits : ∀ key ∈ filtered.keys, ∀ steps ∈ steps? key, ∀ step ∈ steps, step.Fits := by
    decide +kernel
  obtain ⟨-, hdecode⟩ := exists_document_of_filter rfl hsingle hfilter haddress hfits
  -- the document is grown key by key
  have htenth : Document.addKey .empty "k[10][a]" ["x"] =
      .ok (.object [("k", .array [(10, .object [("a", .leaf ["x"])])] [])]) :=
    Document.addKey_eq_ok_iff.mpr ⟨[.name "k", .bracket "10", .bracket "a"],
      [.member "k", .index 10, .member "a"], by decide +kernel, by decide +kernel, rfl⟩
  let elements : List (Nat × Slot) :=
    [(2, .object [("a", .leaf ["y"])]), (10, .object [("a", .leaf ["x"])])]
  have hsecond : Document.addKey
      (.object [("k", .array [(10, .object [("a", .leaf ["x"])])] [])]) "k[2][a]" ["y"] =
      .ok (.object [("k", .array elements [])]) :=
    Document.addKey_eq_ok_iff.mpr ⟨[.name "k", .bracket "2", .bracket "a"],
      [.member "k", .index 2, .member "a"], by decide +kernel, by decide +kernel, rfl⟩
  have hcounted : Document.addKey (.object [("k", .array elements [])]) "t[3]" ["u"] =
      .ok (.object [("k", .array elements []), ("t", .array [(3, .leaf ["u"])] [])]) :=
    Document.addKey_eq_ok_iff.mpr ⟨[.name "t", .bracket "3"], [.member "t", .index 3],
      by decide +kernel, by decide +kernel, rfl⟩
  have happended : Document.addKey
      (.object [("k", .array elements []), ("t", .array [(3, .leaf ["u"])] [])]) "t[]" ["v", "w"] =
      .ok (.object [("k", .array elements []), ("t", .array [(3, .leaf ["u"])] ["v", "w"])]) :=
    Document.addKey_eq_ok_iff.mpr ⟨[.name "t", .anonymous], [.member "t", .append],
      by decide +kernel, by decide +kernel, rfl⟩
  have hslots : Document.slots filtered =
      .ok (.object [("k", .array elements []), ("t", .array [(3, .leaf ["u"])] ["v", "w"])]) := by
    simp only [filtered, Document.slots, Outcome.foldlM_cons_eq_ok_iff]
    exact ⟨_, htenth, _, hsecond, _, hcounted, _, happended, rfl⟩
  refine ⟨hconfig, hsingle, hfilter, haddress, hfits, ?_, hdecode⟩
  rw [Document.ofValues, hslots]
  rfl

end Params

end Allowlist
