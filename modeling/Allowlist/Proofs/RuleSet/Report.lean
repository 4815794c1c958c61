import Allowlist.Proofs.Path.Render
import Allowlist.Proofs.Shape.Basic
import Allowlist.RuleSet

/-!
# Proofs.RuleSet.Report — the recorded walk and the matcher

The matcher stops as soon as it knows its answer, and the walk visits everything that the hops can
reach.  The two are separate recursions.  `Shape.Walk` says by rules what a record must hold: at
each visited shape the answer of the matcher there, and below it the walks from the visited children
on.  Each walk has exactly one record, and `Shape.trace` is it (`Shape.walk_iff`).  The report of a
path is therefore about the decision that the rule set makes for it (`report_follows_matcher`).
-/

namespace Allowlist

namespace Shape

/-! ### The answer of a record -/

/-- What a record answers is what the matcher answers. -/
theorem matched_trace (s : Shape) (hops : List Hop) : (s.trace hops).matched = s.accepts hops := by
  induction s using Shape.induction generalizing hops with
  | key => rfl
  | object members ih =>
    cases hops with
    | nil => rfl
    | cons hop rest =>
      rw [accepts_object_cons]
      simp only [trace, memberTrace_eq, Trace.matched]
      cases hop.member? with
      | none => rfl
      | some name =>
        cases hchild : members.lookup name with
        | none => simp [hchild]
        | some child => simpa [hchild] using ih _ (Keyed.mem_of_lookup hchild) rest
  | array elements ih =>
    cases hops with
    | nil => cases elements <;> rfl
    | cons hop rest =>
      have hany : (elementTraces elements rest).any Trace.matched =
          elements.any (·.accepts rest) := by
        rw [elementTraces_eq, List.any_map, Bool.eq_iff_iff, List.any_eq_true, List.any_eq_true]
        exact exists_congr fun e => and_congr_right fun he => by rw [Function.comp_apply, ih e he]
      rw [accepts_array_cons, trace]
      cases hop.isElement with
      | false => rfl
      | true =>
        cases elements with
        | nil => rfl
        | cons e es =>
          cases rest with
          | nil => rfl
          | cons next rest => simpa [Trace.matched] using hany

/-! ### The rules of a walk -/

/-- The record of a walk of the hops through a shape.  Every visited shape has the matcher's answer
for the hops that reached it. -/
inductive Walk : Shape → List Hop → Trace → Prop
  /-- A key counts the hops that are left. -/
  | key (hops : List Hop) : Walk key hops (.key (key.accepts hops) hops.length)
  | object_end (members : List (String × Shape)) :
      Walk (object members) [] (.object ((object members).accepts []) none none)
  /-- A hop that names a member leads into it. -/
  | member {members : List (String × Shape)} {hop : Hop} {name : String} {child : Shape}
      {rest : List Hop} {below : Trace} :
      hop.member? = some name → members.lookup name = some child → Walk child rest below →
      Walk (object members) (hop :: rest)
        (.object ((object members).accepts (hop :: rest)) (some hop) (some below))
  | noMember {members : List (String × Shape)} {hop : Hop} (rest : List Hop) :
      (∀ name, hop.member? = some name → members.lookup name = none) →
      Walk (object members) (hop :: rest)
        (.object ((object members).accepts (hop :: rest)) (some hop) none)
  | array_end (elements : List Shape) :
      Walk (array elements) [] (.array ((array elements).accepts []) none [])
  /-- An element hop leads into every element shape, in order, when hops are left for them. -/
  | elements {elements : List Shape} {hop : Hop} {rest : List Hop} {below : List Trace} :
      hop.isElement = true → rest ≠ [] → below.length = elements.length →
      (∀ (i : Nat) (e : Shape) (t : Trace), elements[i]? = some e → below[i]? = some t →
        Walk e rest t) →
      Walk (array elements) (hop :: rest)
        (.array ((array elements).accepts (hop :: rest)) (some hop) below)
  | noElements {elements : List Shape} {hop : Hop} {rest : List Hop} :
      ¬ (hop.isElement = true ∧ rest ≠ []) →
      Walk (array elements) (hop :: rest)
        (.array ((array elements).accepts (hop :: rest)) (some hop) [])

/-- The trace of a member is on the record exactly when the hop names one. -/
theorem trace_object_cons (members : List (String × Shape)) (hop : Hop) (rest : List Hop) :
    (object members).trace (hop :: rest) =
      .object ((object members).accepts (hop :: rest)) (some hop)
        (hop.member?.bind fun name => (members.lookup name).map (·.trace rest)) := by
  have hmatched := matched_trace (object members) (hop :: rest)
  rw [trace] at hmatched ⊢
  rw [← hmatched]
  simp only [memberTrace_eq, Trace.matched]

/-- The traces of the elements are on the record exactly when the hop is an element and hops are
left. -/
theorem trace_array_cons (elements : List Shape) (hop : Hop) (rest : List Hop) :
    (array elements).trace (hop :: rest) =
      .array ((array elements).accepts (hop :: rest)) (some hop)
        (if hop.isElement = true ∧ rest ≠ [] then elements.map (·.trace rest) else []) := by
  have hmatched := matched_trace (array elements) (hop :: rest)
  rw [trace] at hmatched ⊢
  rw [← hmatched]
  cases hop.isElement with
  | false => rfl
  | true =>
    cases elements with
    | nil => cases rest <;> rfl
    | cons e es =>
      cases rest with
      | nil => rfl
      | cons next rest => simp [Trace.matched, elementTraces_eq]

/-- The trace is a record of the walk. -/
theorem walk_trace (s : Shape) (hops : List Hop) : Walk s hops (s.trace hops) := by
  induction s using Shape.induction generalizing hops with
  | key => exact .key hops
  | object members ih =>
    cases hops with
    | nil => exact .object_end members
    | cons hop rest =>
      rw [trace_object_cons]
      cases hname : hop.member? with
      | none => exact .noMember rest (by rw [hname]; exact nofun)
      | some name =>
        rw [Option.bind_some]
        cases hchild : members.lookup name with
        | none =>
          refine .noMember rest fun other hother => ?_
          rwa [← Option.some.inj (hname.symm.trans hother)]
        | some child => exact .member hname hchild (ih _ (Keyed.mem_of_lookup hchild) rest)
  | array elements ih =>
    cases hops with
    | nil =>
      cases elements with
      | nil => exact .array_end []
      | cons e es => exact .array_end (e :: es)
    | cons hop rest =>
      rw [trace_array_cons]
      split_ifs with hgo
      · refine .elements hgo.1 hgo.2 (List.length_map _) fun i e t he ht => ?_
        rw [List.getElem?_map, he, Option.map_some, Option.some.injEq] at ht
        exact ht ▸ ih e (List.mem_of_getElem? he) rest
      · exact .noElements hgo

/-- A walk has one record. -/
theorem Walk.eq_trace {s : Shape} {hops : List Hop} {t : Trace} (h : Walk s hops t) :
    t = s.trace hops := by
  induction h with
  | key hops => rfl
  | object_end members => rfl
  | member hname hchild _ ih =>
    rw [trace_object_cons, hname, Option.bind_some, hchild, Option.map_some, ih]
  | @noMember members hop rest hnone =>
    rw [trace_object_cons]
    cases hname : hop.member? with
    | none => rfl
    | some name => rw [Option.bind_some, hnone name hname, Option.map_none]
  | array_end elements => cases elements <;> rfl
  | @elements elements hop rest below helement hrest hlength _ ih =>
    have hbelow : below = elements.map (·.trace rest) := by
      refine List.ext_getElem (by rw [hlength, List.length_map]) fun i hi hi' => ?_
      have hi'' : i < elements.length := hlength ▸ hi
      rw [List.getElem_map]
      exact ih i _ _ (List.getElem?_eq_getElem hi'') (List.getElem?_eq_getElem hi)
    rw [trace_array_cons, if_pos ⟨helement, hrest⟩, hbelow]
  | noElements hstop => rw [trace_array_cons, if_neg hstop]

theorem walk_iff {s : Shape} {hops : List Hop} {t : Trace} :
    Walk s hops t ↔ t = s.trace hops :=
  ⟨Walk.eq_trace, fun h => h ▸ walk_trace s hops⟩

end Shape

namespace RuleSet

/-! ### Reports -/

theorem report_of_none {path : String} (h : Path.tokenize? path = none) (set : RuleSet) :
    set.report path = ⟨path, false, none, none⟩ := by
  rw [report, h]

theorem report_of_some {path : String} {hops : List Hop} (h : Path.tokenize? path = some hops)
    (set : RuleSet) :
    set.report path = ⟨path, set.root.accepts hops, some hops, some (set.root.trace hops)⟩ := by
  rw [report, h, ← Shape.matched_trace]

/-- At every shape that the hops reach, the trace has the answer that the matcher gives there, and
below it the traces of the children that are visited, each for the hops that are left: of a member
exactly when the hop names it, of all elements in order exactly when the hop is one and hops are
left.  A report says what the rule set permits.  It has hops and a trace exactly for paths, and then
the hops spell the path and the trace is theirs. -/
theorem report_follows_matcher :
    (∀ (s : Shape) (hops : List Hop), (s.trace hops).matched = s.accepts hops ∧
      ∀ t, Shape.Walk s hops t ↔ t = s.trace hops) ∧
    ∀ (set : RuleSet) (path : String),
      (set.report path).permitted = set.permits path ∧
      ((set.report path).hops = none ↔ Path.tokenize? path = none) ∧
      ((set.report path).root = none ↔ Path.tokenize? path = none) ∧
      ∀ hops, (set.report path).hops = some hops →
        String.join (hops.map Hop.render) = path ∧
          (set.report path).root = some (set.root.trace hops) := by
  refine ⟨fun s hops => ⟨s.matched_trace hops, fun t => Shape.walk_iff⟩, fun set path => ?_⟩
  cases hpath : Path.tokenize? path with
  | none =>
    rw [report_of_none hpath, permits, hpath]
    exact ⟨rfl, iff_of_true rfl rfl, iff_of_true rfl rfl, nofun⟩
  | some hops =>
    rw [report_of_some hpath, permits, hpath]
    refine ⟨rfl, iff_of_false nofun nofun, iff_of_false nofun nofun, ?_⟩
    rintro _ ⟨⟩
    exact ⟨(Path.render_of_tokenize? hpath).1, rfl⟩

/-- Both element shapes are visited, also when the second alone lets the path end. -/
theorem report_follows_matcher_elements :
    let set : RuleSet := ⟨.array [.object [("a", .key)], .object [("b", .key)]], []⟩
    let hops : List Hop := [.bracket "0", .bracket "b"]
    let below : List Trace :=
      [.object false (some (.bracket "b")) none,
        .object true (some (.bracket "b")) (some (.key true 0))]
    (set.report "[0][b]").hops = some hops ∧ (set.report "[0][b]").permitted = true ∧
      (set.report "[0][b]").permitted = set.permits "[0][b]" ∧
      String.join (hops.map Hop.render) = "[0][b]" ∧
      set.root.trace hops = .array true (some (.bracket "0")) below ∧
      Shape.Walk set.root hops (.array true (some (.bracket "0")) below) := by
  intro set hops below
  have hread : Path.tokenize? "[0][b]" = some hops := by decide +kernel
  have hhops : (set.report "[0][b]").hops = some hops := by rw [report_of_some hread]
  have haccepts : set.root.accepts hops = true := by decide +kernel
  have htrace : set.root.trace hops = .array true (some (.bracket "0")) below := by rfl
  obtain ⟨hwalk, hreport⟩ := report_follows_matcher
  obtain ⟨hpermitted, -, -, hspells⟩ := hreport set "[0][b]"
  refine ⟨hhops, ?_, hpermitted, (hspells hops hhops).1, htrace, ?_⟩
  · rw [report_of_some hread]
    exact haccepts
  · exact ((hwalk set.root hops).2 _).mpr htrace.symm

end RuleSet

end Allowlist
