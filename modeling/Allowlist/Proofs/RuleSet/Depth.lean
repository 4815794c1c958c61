import Allowlist.Proofs.Rule.References
import Allowlist.Proofs.RuleSet.Render
import Mathlib.Order.Basic

/-!
# Proofs.RuleSet.Depth — depth that is counted beside the shapes

Depth is counted once, when a group is built, and kept beside its shape.  Entries that merge or that
are dropped have been counted before, and roots are merged without another count.  The count is
right all the same: in every state of a reduction it is the depth of the shape, so a group that
makes a shape is refused exactly when this shape is too deep (`Reduction.Builds.exists_parts`).  The
root of a rule set is as deep as the deepest of its rules by itself (`max?_depth`).
-/

namespace Allowlist

namespace Rule

open Allowlist.Rule.Symbol

namespace Reduction

/-- The groups that are built next: the innermost one, or in the end an object of all entries that
are left. -/
inductive Builds (state : Reduction) : GroupKind → List Symbol → Prop
  | innermost {group : Innermost} : innermost? state.text = .ok (some group) →
      Builds state group.kind group.body
  | rest : state.step = .ok none → (∀ index, trim state.text ≠ [.group index]) →
      Builds state .object (trim state.text)

variable {state : Reduction} {kind : GroupKind} {body : List Symbol}

theorem Builds.run_eq_error (h : state.Builds kind body) {fault : Fault}
    (hbuild : Group.build kind body state.slots = .error fault) : state.run = .error fault := by
  cases h with
  | innermost hfound =>
    refine run_of_error ?_
    simp only [step, hfound, bind, Except.bind, hbuild]
  | rest hlast hnot =>
    rw [run_of_none hlast, finish_of_entries hnot, hbuild]
    rfl

theorem Steps.run_eq {last : Reduction} (h : Steps state last) : state.run = last.run := by
  induction h with
  | refl => rfl
  | tail _ hnext ih => rw [ih, run_of_next hnext]

/-- The references of what is built are read from linear slots. -/
theorem Builds.exists_linear (h : state.Builds kind body) (hs : state.Linear) :
    ∃ front back, state.slots.Linear (front ++ references body ++ back) := by
  cases h with
  | innermost hfound =>
    rw [Linear, (innermost?_eq_some_iff.mp hfound).1, references_innermost] at hs
    exact ⟨_, _, hs⟩
  | rest _ _ => exact ⟨[], [], hs.trimmed⟩

/-- Entries that can be read stand for parts, and when these make a shape, the group is closed with
the depth of this shape. -/
theorem Builds.exists_parts (h : state.Builds kind body) (hs : state.Linear)
    (hexact : state.slots.Exact) {entries : List Entry} (hbody : Entry.ofBody body = .ok entries) :
    ∃ parts slots, List.Forall₂ state.slots.Stands entries parts ∧
      ∀ shape, groupShape? kind (Group.shapesOf parts) = some shape →
        Group.build kind body state.slots = Group.close shape shape.depth slots := by
  obtain ⟨front, back, hlinear⟩ := h.exists_linear hs
  rw [references_of_ofBody hbody] at hlinear
  obtain ⟨parts, slots, hread⟩ := hlinear.exists_readAll
  exact ⟨parts, slots, hread.stands, fun shape hshape =>
    Group.build_eq_close hexact hbody hread hshape⟩

end Reduction

theorem Group.close_eq_tooDeep_iff {shape : Shape} {depth d : Nat} {slots : Slots} :
    close shape depth slots = .error (.tooDeep d) ↔ maxDepth < depth ∧ d = depth := by
  unfold close
  split_ifs with h
  · rw [Except.error.injEq, Fault.tooDeep.injEq, eq_comm]
    exact (and_iff_right h).symm
  · exact iff_of_false nofun fun hdeep => h hdeep.1

end Rule

namespace RuleSet

/-! ### Roots -/

/-- Every rule of a rule set compiles by itself. -/
theorem exists_singles {rules : List String} {set : RuleSet} (h : compile rules = .ok set) :
    ∃ singles, (rules.mapM fun rule => compile [rule]) = .ok singles := by
  obtain ⟨roots, hroots, -, -⟩ := compile_cases h
  refine Outcome.exists_mapM_iff.mpr fun rule hrule => ?_
  obtain ⟨root, hroot⟩ :=
    Outcome.exists_mapM_iff.mp ⟨roots, hroots⟩ rule (Distinct.mem_ofList.mpr hrule)
  exact ⟨_, compile_singleton hroot⟩

/-- A rule set is no deeper than a bound when none of its rules is. -/
theorem depth_le_iff {rules : List String} {set : RuleSet} (h : compile rules = .ok set)
    {singles : List RuleSet} (hsingles : (rules.mapM fun rule => compile [rule]) = .ok singles)
    {n : Nat} : set.depth ≤ n ↔ ∀ d ∈ singles.map depth, d ≤ n := by
  obtain ⟨roots, hroots, hmerge, -⟩ := compile_cases h
  have hsingle : ∀ root, root ∈ roots ↔ ∃ one ∈ singles, one.root = root := by
    intro root
    simp only [mem_roots_iff hroots, Outcome.mem_mapM_iff hsingles]
    constructor
    · rintro ⟨rule, hrule, hroot⟩
      exact ⟨_, ⟨rule, hrule, compile_singleton hroot⟩, rfl⟩
    · rintro ⟨one, ⟨rule, hrule, hone⟩, rfl⟩
      obtain ⟨roots', hroots', hmerge', -⟩ := compile_cases hone
      have hone' : Distinct.ofList [rule] = [rule] :=
        Distinct.ofList_eq_self (List.nodup_singleton rule)
      rw [hone'] at hroots'
      obtain ⟨root, hroot⟩ := Outcome.exists_mapM_iff.mp ⟨roots', hroots'⟩ rule (by simp)
      cases (compile_singleton hroot).symm.trans hone
      exact ⟨rule, hrule, hroot⟩
  have hsorted := sorted_of_mem_roots hroots
  cases roots with
  | nil => cases hmerge
  | cons first roots =>
    obtain ⟨hfirst, hrest⟩ := List.forall_mem_cons.mp hsorted
    have hall := (foldlM_merge_eq_ok_iff.mp hmerge).depth_le_iff hfirst hrest (n := n)
    rw [depth, hall, List.forall_mem_map]
    simp only [hsingle, forall_exists_index, and_imp, forall_apply_eq_imp_iff₂]
    rfl

/-- A rule set is as deep as the deepest of its rules. -/
theorem max?_depth {rules : List String} {set : RuleSet} (h : compile rules = .ok set)
    {singles : List RuleSet} (hsingles : (rules.mapM fun rule => compile [rule]) = .ok singles) :
    (singles.map depth).max? = some set.depth := by
  cases hmax : (singles.map depth).max? with
  | none =>
    -- without rules nothing would compile
    rw [List.max?_eq_none_iff] at hmax
    have hzero : set.depth ≤ 0 := (depth_le_iff h hsingles).mpr (by simp [hmax])
    cases hroot : set.root <;> simp [depth, hroot, Shape.depth] at hzero
  | some greatest =>
    refine congrArg some (eq_of_forall_ge_iff fun n => ?_)
    rw [depth_le_iff h hsingles]
    exact List.max?_le_iff hmax

/-- A compiled root is an object or an array of at most the greatest depth.  Its names can be
written, no array in it has a bare key or two equal elements, and it is as deep as the deepest of
its rules by itself.  In every state of the reduction of a rule, the depth that is kept with a group
is that of its shape.  Where the entries of a group that is built next can be read, they stand for
keys and for groups that are parked.  If these make a shape, the group is refused for its depth
exactly when this shape is too deep, and otherwise it is built; a refusal ends the reduction. -/
theorem counted_depth_exact :
    (∀ (rules : List String) (set : RuleSet), compile rules = .ok set →
      set.root ≠ .key ∧ set.root.Declared ∧ set.root.depth ≤ 32 ∧
        ∃ singles, (rules.mapM fun rule => compile [rule]) = .ok singles ∧
          (singles.map depth).max? = some set.root.depth) ∧
    ∀ (rule : String) (state : Rule.Reduction),
      Rule.Reduction.Steps (.start rule.toList) state →
      (∀ (i : Nat) (parked : Rule.Parked), state.slots[i]? = some (some parked) →
        parked.depth = parked.shape.depth) ∧
      ∀ (kind : Rule.GroupKind) (body : List Rule.Symbol), state.Builds kind body →
        (∀ fault, Rule.Group.build kind body state.slots = .error fault →
          (Rule.Reduction.start rule.toList).run = .error fault) ∧
        ∀ entries, Rule.Entry.ofBody body = .ok entries →
          ∃ parts, List.Forall₂ state.slots.Stands entries parts ∧
            ∀ shape, Rule.groupShape? kind (Rule.Group.shapesOf parts) = some shape →
              (∀ d, Rule.Group.build kind body state.slots = .error (.tooDeep d) ↔
                32 < shape.depth ∧ d = shape.depth) ∧
              ((∃ slots, Rule.Group.build kind body state.slots =
                .ok (⟨shape, shape.depth⟩, slots)) ↔ shape.depth ≤ 32) := by
  refine ⟨fun rules set h => ?_, fun rule state hsteps => ?_⟩
  · have hroot := isRoot_of_compile h
    obtain ⟨singles, hsingles⟩ := exists_singles h
    exact ⟨hroot.ne_key, hroot.declared, hroot.depth_le, singles, hsingles,
      max?_depth h hsingles⟩
  · have hexact : state.slots.Exact := hsteps.exact (Rule.Reduction.exact_start _)
    have hlinear : state.Linear := hsteps.linear (Rule.Reduction.linear_start _)
    refine ⟨fun i parked hparked => (hexact i parked hparked).depth_eq, ?_⟩
    intro kind body hbuilds
    refine ⟨fun fault hfault => hsteps.run_eq.trans (hbuilds.run_eq_error hfault), ?_⟩
    intro entries hentries
    obtain ⟨parts, slots, hstands, hclose⟩ := hbuilds.exists_parts hlinear hexact hentries
    refine ⟨parts, hstands, fun shape hshape => ?_⟩
    rw [hclose shape hshape]
    refine ⟨fun d => Rule.Group.close_eq_tooDeep_iff, ?_⟩
    constructor
    · rintro ⟨_, hok⟩
      exact (Rule.Group.close_eq_ok_iff.mp hok).1
    · exact fun hle => ⟨slots, Rule.Group.close_eq_ok_iff.mpr ⟨hle, rfl, rfl⟩⟩

/-- Element shapes that are given three times, and a group of two equal keys that is built with the
depth of one of them. -/
theorem counted_depth_exact_repeated :
    (∃ singles, (["a", "b:[x, {x}, x]"].mapM fun rule => compile [rule]) = .ok singles ∧
      (singles.map depth).max? = some 4) ∧
      ∃ slots, Rule.Group.build .array (Rule.Symbol.ofChars "b, b".toList) [] =
        .ok (⟨.array [.object [("b", .key)]], 3⟩, slots) := by
  constructor
  · have hcompile : compile ["a", "b:[x, {x}, x]"] =
        .ok ⟨.object [("a", .key), ("b", .array [.object [("x", .key)]])],
          ["a", "b:[x, {x}, x]"]⟩ := by
      decide +kernel
    obtain ⟨-, -, -, hsingles⟩ := counted_depth_exact.1 _ _ hcompile
    exact hsingles
  · let group : Rule.Symbol.Innermost :=
      ⟨Rule.Symbol.ofChars "y:".toList, .array, Rule.Symbol.ofChars "b, b".toList, []⟩
    have hvalid : group.Valid := ⟨by decide +kernel, by decide +kernel, by decide +kernel⟩
    have htext : (Rule.Reduction.start "y:[b, b]".toList).text = group.text := by decide +kernel
    have hbuilds : (Rule.Reduction.start "y:[b, b]".toList).Builds group.kind group.body :=
      .innermost (Rule.Symbol.innermost?_eq_some_iff.mpr ⟨htext, hvalid⟩)
    have hentries : Rule.Entry.ofBody (Rule.Symbol.ofChars "b, b".toList) =
        .ok [.key "b", .key "b"] := by
      decide +kernel
    obtain ⟨-, hbuild⟩ := (counted_depth_exact.2 "y:[b, b]" _ .refl).2 _ _ hbuilds
    obtain ⟨parts, hstands, hshape⟩ := hbuild _ hentries
    have hparts : parts = [(some "b", .key), (some "b", .key)] := by
      cases hstands with
      | cons hfirst hrest =>
        cases hfirst
        cases hrest with
        | cons hsecond hnil =>
          cases hsecond
          cases hnil
          rfl
    subst hparts
    have hdrop : Rule.groupShape? .array (Rule.Group.shapesOf [(some "b", .key), (some "b", .key)])
        = some (.array [.object [("b", .key)]]) := by
      decide +kernel
    exact (hshape _ hdrop).2.mpr (by decide +kernel)

end RuleSet

end Allowlist
