import Allowlist.Proofs.Document.Holds
import Allowlist.Proofs.Document.Keys
import Mathlib.Data.List.Induction

/-!
# Proofs.Document.Conflict — which keys make a document

Keys are added one after the other, and whether a key can join depends on the tree that the keys
before it left.  That tree holds exactly their placements, so the question has an answer that does
not look at the tree: a key joins when it is a path, its numbers fit, and it conflicts with no key
before it (`exists_addKey_iff`).  A document exists when this holds of all keys, in whatever order;
otherwise the error names the first key that cannot join (`exists_document_iff_no_conflict`).
-/

namespace Allowlist

/-- The placements of the entries whose keys are paths, in their order. -/
def Put.ofEntries (entries : List (String × List String)) : List Put :=
  entries.filterMap fun entry => (Path.steps? entry.1).map fun steps => (steps, entry.2)

/-- Two paths whose steps conflict. -/
def Path.Conflict (a b : String) : Prop :=
  ∃ as bs, steps? a = some as ∧ steps? b = some bs ∧ Step.Conflict as bs

theorem Path.Conflict.symm {a b : String} (h : Conflict a b) : Conflict b a := by
  obtain ⟨as, bs, ha, hb, hconflict⟩ := h
  exact ⟨bs, as, hb, ha, hconflict.symm⟩

theorem Put.mem_ofEntries {entries : List (String × List String)} {steps : List Step}
    {items : List String} :
    (steps, items) ∈ ofEntries entries ↔
      ∃ key, (key, items) ∈ entries ∧ Path.steps? key = some steps := by
  unfold ofEntries
  rw [List.mem_filterMap]
  constructor
  · rintro ⟨⟨key, items'⟩, hmem, h⟩
    obtain ⟨steps', hsteps, he⟩ := Option.map_eq_some_iff.mp h
    cases he
    exact ⟨key, hmem, hsteps⟩
  · rintro ⟨key, hmem, hsteps⟩
    exact ⟨(key, items), hmem, by rw [hsteps]; rfl⟩

theorem Put.ofEntries_concat {entries : List (String × List String)} {key : String}
    {items : List String} {steps : List Step} (h : Path.steps? key = some steps) :
    ofEntries (entries ++ [(key, items)]) = ofEntries entries ++ [(steps, items)] := by
  simp [ofEntries, h]

namespace Document

/-- The key is a path, its numbers fit, and it conflicts with no earlier key. -/
def Joins (earlier : List String) (key : String) : Prop :=
  (∃ steps, Path.steps? key = some steps ∧ ∀ step ∈ steps, step.Fits) ∧
    ∀ other ∈ earlier, ¬ Path.Conflict other key

/-- Every key joins those before it. -/
def JoinInTurn (keys : List String) : Prop :=
  ∀ front key back, keys = front ++ key :: back → Joins front key

theorem joinInTurn_concat_iff {keys : List String} {key : String} :
    JoinInTurn (keys ++ [key]) ↔ JoinInTurn keys ∧ Joins keys key := by
  constructor
  · intro h
    refine ⟨fun front k back he => h front k (back ++ [key]) ?_, h keys key [] rfl⟩
    rw [he, List.append_assoc, List.cons_append]
  · rintro ⟨hkeys, hkey⟩ front k back he
    rcases back.eq_nil_or_concat with rfl | ⟨back, last, rfl⟩
    · obtain ⟨rfl, hlast⟩ := List.append_inj' he rfl
      cases hlast
      exact hkey
    · rw [List.concat_eq_append, ← List.cons_append, ← List.append_assoc] at he
      obtain ⟨rfl, -⟩ := List.append_inj' he rfl
      exact hkeys front k back rfl

/-- For different keys, joining in turn is a matter of pairs, in no order. -/
theorem joinInTurn_iff {keys : List String} (h : keys.Nodup) :
    JoinInTurn keys ↔
      (∀ key ∈ keys, ∃ steps, Path.steps? key = some steps ∧ ∀ step ∈ steps, step.Fits) ∧
        ∀ a ∈ keys, ∀ b ∈ keys, a ≠ b → ¬ Path.Conflict a b := by
  induction keys using List.reverseRecOn with
  | nil => simp [JoinInTurn]
  | append_singleton keys key ih =>
    obtain ⟨hkeys, -, hnew⟩ := List.nodup_append.mp h
    rw [joinInTurn_concat_iff, ih hkeys, Joins]
    simp only [List.forall_mem_append, List.forall_mem_singleton]
    constructor
    · rintro ⟨⟨hpaths, hpairs⟩, hpath, hkey⟩
      refine ⟨⟨hpaths, hpath⟩, fun a ha => ⟨hpairs a ha, fun _ => hkey a ha⟩, ?_, ?_⟩
      · exact fun b hb _ hconflict => hkey b hb hconflict.symm
      · exact fun hne => absurd rfl hne
    · rintro ⟨⟨hpaths, hpath⟩, hpairs, -⟩
      refine ⟨⟨hpaths, fun a ha => (hpairs a ha).1⟩, hpath, fun other hother => ?_⟩
      exact (hpairs other hother).2 (hnew other hother key (by simp))

/-! ### Adding keys -/

/-- What a key that cannot join is refused with. -/
def refusal (key : String) : Error :=
  if Path.tokenize? key = none then .invalidPath key else .conflictingPath key

theorem addKey_cases (root : Slot) (key : String) (items : List String) :
    (∃ root', addKey root key items = .ok root') ∨
      addKey root key items = .error (refusal key) := by
  unfold addKey refusal
  cases Path.tokenize? key with
  | none => exact .inr rfl
  | some hops =>
    dsimp only
    cases (hops.mapM Hop.step?).bind fun steps => root.place items steps with
    | none => exact .inr (by rw [if_neg (Option.some_ne_none hops)])
    | some root' => exact .inl ⟨root', rfl⟩

theorem addKey_eq_ok_iff_steps {root root' : Slot} {key : String} {items : List String} :
    addKey root key items = .ok root' ↔
      ∃ steps, Path.steps? key = some steps ∧ (∀ step ∈ steps, step.Fits) ∧
        root.place items steps = some root' := by
  rw [addKey_eq_ok_iff]
  constructor
  · rintro ⟨hops, steps, htokens, hsteps, hplace⟩
    obtain ⟨rfl, hfits⟩ := mapM_step?_eq_some_iff.mp hsteps
    exact ⟨_, by rw [Path.steps?, htokens]; rfl, hfits, hplace⟩
  · rintro ⟨steps, hsteps, hfits, hplace⟩
    obtain ⟨hops, htokens, rfl⟩ := Option.map_eq_some_iff.mp hsteps
    exact ⟨hops, _, htokens, mapM_step?_eq_some_iff.mpr ⟨rfl, hfits⟩, hplace⟩

/-- A key can be added to the tree of the earlier keys exactly when it joins them. -/
theorem exists_addKey_iff {root : Slot} {entries : List (String × List String)}
    (h : root.Holds (Put.ofEntries entries)) {key : String} {items : List String} :
    (∃ root', addKey root key items = .ok root') ↔ Joins (entries.map Prod.fst) key := by
  have hconflict : ∀ steps, Path.steps? key = some steps →
      ((∀ put ∈ Put.ofEntries entries, ¬ Step.Conflict put.1 steps) ↔
        ∀ other ∈ entries.map Prod.fst, ¬ Path.Conflict other key) := by
    intro steps hsteps
    constructor
    · rintro hall other hother ⟨as, bs, ha, hb, hconflict⟩
      obtain ⟨⟨_, items'⟩, hmem, rfl⟩ := List.mem_map.mp hother
      rw [hsteps, Option.some.injEq] at hb
      exact hall (as, items') (Put.mem_ofEntries.mpr ⟨_, hmem, ha⟩) (hb ▸ hconflict)
    · rintro hall ⟨as, items'⟩ hput hconflict
      obtain ⟨other, hmem, ha⟩ := Put.mem_ofEntries.mp hput
      exact hall other (List.mem_map_of_mem hmem) ⟨as, steps, ha, hsteps, hconflict⟩
  constructor
  · rintro ⟨root', hadd⟩
    obtain ⟨steps, hsteps, hfits, hplace⟩ := addKey_eq_ok_iff_steps.mp hadd
    exact ⟨⟨steps, hsteps, hfits⟩,
      (hconflict steps hsteps).mp (h.exists_place_iff.mp ⟨root', hplace⟩)⟩
  · rintro ⟨⟨steps, hsteps, hfits⟩, hall⟩
    obtain ⟨root', hplace⟩ := h.exists_place_iff.mpr ((hconflict steps hsteps).mpr hall)
    exact ⟨root', addKey_eq_ok_iff_steps.mpr ⟨steps, hsteps, hfits, hplace⟩⟩

theorem holds_addKey {root root' : Slot} {entries : List (String × List String)}
    (h : root.Holds (Put.ofEntries entries)) {key : String} {items : List String}
    (hadd : addKey root key items = .ok root') :
    root'.Holds (Put.ofEntries (entries ++ [(key, items)])) := by
  obtain ⟨steps, hsteps, -, hplace⟩ := addKey_eq_ok_iff_steps.mp hadd
  rw [Put.ofEntries_concat hsteps]
  exact h.place hplace

/-! ### All keys -/

theorem slots_concat (entries : List (String × List String)) (key : String) (items : List String) :
    slots ⟨entries ++ [(key, items)]⟩ =
      slots ⟨entries⟩ >>= fun root => addKey root key items := by
  simp [slots, List.foldlM_append]

/-- Either all keys join in turn and the tree holds them, or the first that does not is refused. -/
theorem slots_cases (entries : List (String × List String)) :
    (JoinInTurn (entries.map Prod.fst) ∧
        ∃ root, slots ⟨entries⟩ = .ok root ∧ root.Holds (Put.ofEntries entries)) ∨
      ∃ front key back, entries.map Prod.fst = front ++ key :: back ∧ JoinInTurn front ∧
        ¬ Joins front key ∧ slots ⟨entries⟩ = .error (refusal key) := by
  induction entries using List.reverseRecOn with
  | nil => exact .inl ⟨by simp [JoinInTurn], .empty, rfl, .empty⟩
  | append_singleton entries entry ih =>
    obtain ⟨key, items⟩ := entry
    rw [slots_concat, List.map_append, List.map_singleton]
    obtain ⟨hturn, root, hroot, hholds⟩ | ⟨front, first, back, hkeys, hturn, hnot, herror⟩ := ih
    · by_cases hjoins : Joins (entries.map Prod.fst) key
      · have hexists : ∃ root', addKey root key items = .ok root' :=
          (exists_addKey_iff hholds).mpr hjoins
        obtain ⟨root', hadd⟩ := hexists
        exact .inl ⟨joinInTurn_concat_iff.mpr ⟨hturn, hjoins⟩, root',
          Outcome.bind_eq_ok_iff.mpr ⟨root, hroot, hadd⟩, holds_addKey hholds hadd⟩
      · refine .inr ⟨_, key, [], rfl, hturn, hjoins, ?_⟩
        obtain hadd | hadd := addKey_cases root key items
        · exact absurd ((exists_addKey_iff hholds).mp hadd) hjoins
        · rw [hroot]
          exact hadd
    · refine .inr ⟨front, first, back ++ [key], ?_, hturn, hnot, ?_⟩
      · rw [hkeys, List.append_assoc, List.cons_append]
      · rw [herror]
        rfl

/-- The tree of all keys holds all their placements. -/
theorem holds_slots {values : Values} {root : Slot} (h : slots values = .ok root) :
    root.Holds (Put.ofEntries values.entries) := by
  obtain ⟨-, root', hroot, hholds⟩ | ⟨_, _, _, -, -, -, herror⟩ := slots_cases values.entries
  · cases hroot.symm.trans h
    exact hholds
  · cases herror.symm.trans h

theorem joinInTurn_of_slots {values : Values} {root : Slot} (h : slots values = .ok root) :
    JoinInTurn values.keys := by
  obtain ⟨hturn, -⟩ | ⟨_, _, _, -, -, -, herror⟩ := slots_cases values.entries
  · exact hturn
  · cases herror.symm.trans h

theorem ofValues_of_slots {values : Values} {root : Slot} (h : slots values = .ok root) :
    ∃ document, ofValues values = .ok document := by
  rw [ofValues, h]
  cases root with
  | empty => exact ⟨_, rfl⟩
  | leaf items => exact ⟨_, rfl⟩
  | object members => exact ⟨_, rfl⟩
  | array elements appended => exact ⟨_, rfl⟩

theorem ofValues_of_slots_error {values : Values} {error : Error}
    (h : slots values = .error error) : ofValues values = .error error := by
  rw [ofValues, h]
  rfl

/-- There is a document exactly when every key is a path, every number fits, and no two different
keys conflict.  Otherwise the error names the first key that cannot join the keys before it. -/
theorem exists_document_iff_no_conflict {values : Values}
    (h : Keyed.Sorted values.entries) :
    ((∃ document, ofValues values = .ok document) ↔
        (∀ key ∈ values.keys, ∃ steps, Path.steps? key = some steps ∧ ∀ step ∈ steps, step.Fits) ∧
          ∀ a ∈ values.keys, ∀ b ∈ values.keys, a ≠ b → ¬ Path.Conflict a b) ∧
      ∀ error, ofValues values = .error error →
        ∃ front key back, values.keys = front ++ key :: back ∧ JoinInTurn front ∧
          ¬ Joins front key ∧
          error = if Path.tokenize? key = none then .invalidPath key else .conflictingPath key := by
  have hnodup : values.keys.Nodup := h.nodup_keys
  rw [← joinInTurn_iff hnodup]
  obtain ⟨hturn, root, hroot, -⟩ | ⟨front, key, back, hkeys, hturn, hnot, herror⟩ :=
    slots_cases values.entries
  · obtain ⟨document, hdocument⟩ := ofValues_of_slots hroot
    refine ⟨iff_of_true ⟨document, hdocument⟩ hturn, fun error h => ?_⟩
    cases hdocument.symm.trans h
  · have hvalues := ofValues_of_slots_error herror
    refine ⟨iff_of_false ?_ ?_, fun error h => ?_⟩
    · rintro ⟨document, hdocument⟩
      cases hdocument.symm.trans hvalues
    · exact fun hall => hnot (hall front key back hkeys)
    · cases hvalues.symm.trans h
      exact ⟨front, key, back, hkeys, hturn, hnot, rfl⟩

/-- Two keys that cannot join: the first of them is named, for its conflict, and the second, which
is no path, is not. -/
theorem exists_document_iff_no_conflict_two_refused :
    Keyed.Sorted [("a", ["1"]), ("a[b]", ["2"]), ("b[", ["3"])] ∧
      ofValues ⟨[("a", ["1"]), ("a[b]", ["2"]), ("b[", ["3"])]⟩ = .error (.conflictingPath "a[b]") ∧
      ∃ front key back, ["a", "a[b]", "b["] = front ++ key :: back ∧ JoinInTurn front ∧
        ¬ Joins front key ∧ Error.conflictingPath "a[b]" =
          if Path.tokenize? key = none then .invalidPath key else .conflictingPath key := by
  have hsorted : Keyed.Sorted [("a", ["1"]), ("a[b]", ["2"]), ("b[", ["3"])] := by
    decide +kernel
  have hfirst : addKey .empty "a" ["1"] = .ok (.object [("a", .leaf ["1"])]) :=
    addKey_eq_ok_iff.mpr ⟨[.name "a"], [.member "a"], by decide +kernel, by decide +kernel, rfl⟩
  have hsecond : addKey (.object [("a", .leaf ["1"])]) "a[b]" ["2"] =
      .error (.conflictingPath "a[b]") := by
    have htokens : Path.tokenize? "a[b]" = some [.name "a", .bracket "b"] := by decide +kernel
    have hsteps : [Hop.name "a", .bracket "b"].mapM Hop.step? =
        some [.member "a", .member "b"] := by
      decide +kernel
    rw [addKey, htokens]
    dsimp only
    rw [hsteps]
    rfl
  have hslots : slots ⟨[("a", ["1"]), ("a[b]", ["2"]), ("b[", ["3"])]⟩ =
      .error (.conflictingPath "a[b]") := by
    rw [slots, List.foldlM_cons, hfirst]
    change [("a[b]", ["2"]), ("b[", ["3"])].foldlM (fun root entry => addKey root entry.1 entry.2)
      (.object [("a", .leaf ["1"])]) = _
    rw [List.foldlM_cons, hsecond]
    rfl
  have hrefused : ofValues ⟨[("a", ["1"]), ("a[b]", ["2"]), ("b[", ["3"])]⟩ =
      .error (.conflictingPath "a[b]") :=
    ofValues_of_slots_error hslots
  exact ⟨hsorted, hrefused, (exists_document_iff_no_conflict hsorted).2 _ hrefused⟩

end Document

end Allowlist
