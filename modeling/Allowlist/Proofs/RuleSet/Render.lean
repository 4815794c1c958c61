import Allowlist.Proofs.Rule.Render
import Allowlist.Proofs.RuleSet

/-!
# Proofs.RuleSet.Render — a rule set as one rule

The root of a rule set is a merge of compiled shapes, so it is declared and not nested too deeply
(`isRoot_of_compile`).  Its rendering is then one rule with the same root.  Only its length can keep
it from compiling, and it identifies the root however long it is (`compile_render_iff`).
-/

namespace Allowlist.RuleSet

/-- A shape that rules declare, that is no bare key, and that is not nested too deeply. -/
structure IsRoot (s : Shape) : Prop where
  declared : s.Declared
  ne_key : s ≠ .key
  depth_le : s.depth ≤ Rule.maxDepth

theorem IsRoot.merge {path : List String} {a b c : Shape} (ha : IsRoot a) (hb : IsRoot b)
    (h : Shape.merge path a b = .ok c) : IsRoot c := by
  refine ⟨ha.declared.merge hb.declared h, Shape.ne_key_of_merge ha.ne_key h, ?_⟩
  rw [Shape.depth_merge ha.declared.sorted hb.declared.sorted h]
  exact max_le ha.depth_le hb.depth_le

/-- The root of a rule set is declared and not nested too deeply. -/
theorem isRoot_of_compile {rules : List String} {set : RuleSet} (h : compile rules = .ok set) :
    IsRoot set.root := by
  obtain ⟨roots, hroots, hmerge, -⟩ := compile_cases h
  have hall : ∀ s ∈ roots, IsRoot s := by
    intro s hs
    obtain ⟨rule, -, hrule⟩ := (Outcome.mem_mapM_iff hroots).mp hs
    obtain ⟨hdeclared, hne, hdepth⟩ := Rule.declared_of_compile hrule
    exact ⟨hdeclared, hne, hdepth⟩
  cases roots with
  | nil => cases hmerge
  | cons first roots =>
    obtain ⟨hfirst, hrest⟩ := List.forall_mem_cons.mp hall
    refine Outcome.foldlM_induction (P := IsRoot) hfirst (fun merged next merged' hnext hm h => ?_)
      hmerge
    exact hm.merge (hrest next hnext) (Outcome.mapError_eq_ok_iff.mp h)

/-! ### Renderings -/

theorem IsRoot.spells {s : Shape} (h : IsRoot s) : Rule.Spells s.tree s.render.toList := by
  simpa using Rule.Spells.group Rule.Blank.nil (h.declared.groupText h.ne_key) Rule.Blank.nil

/-- The reduction of a rendering of any length ends in the shape that was rendered. -/
theorem IsRoot.run_render {s : Shape} (h : IsRoot s) :
    (Rule.Reduction.start s.render.toList).run = .ok s :=
  Rule.run_of_spells h.spells h.declared.denote?_tree h.depth_le

theorem IsRoot.compile_render {s : Shape} (h : IsRoot s)
    (hlength : s.render.utf8ByteSize ≤ 8192) : Rule.compile s.render = .ok s :=
  Rule.compile_of_spells hlength h.spells h.declared.denote?_tree h.depth_le

theorem compile_tooLong {rule : String} (h : 8192 < rule.utf8ByteSize) :
    compile [rule] = .error (.tooLong rule.utf8ByteSize) := by
  have hrule : Rule.compile rule = .error (.tooLong rule.utf8ByteSize) := if_pos h
  have hone : Distinct.ofList [rule] = [rule] := Distinct.ofList_eq_self (List.nodup_singleton rule)
  rw [compile, hone, List.mapM_cons, hrule]
  rfl

/-- The rendering of a compiled root compiles to that root exactly when it is short enough, and is
refused as too long exactly when it is not.  Whatever its length, it is the rendering of no other
compiled root. -/
theorem compile_render_iff {rules : List String} {set : RuleSet} (h : compile rules = .ok set) :
    ((∃ again, compile [set.render] = .ok again ∧ again.root = set.root) ↔
        set.render.utf8ByteSize ≤ 8192) ∧
      (compile [set.render] = .error (.tooLong set.render.utf8ByteSize) ↔
        8192 < set.render.utf8ByteSize) ∧
      ∀ (others : List String) (other : RuleSet), compile others = .ok other →
        (other.render = set.render ↔ other.root = set.root) := by
  have hroot := isRoot_of_compile h
  have hshort : set.render.utf8ByteSize ≤ 8192 →
      compile [set.render] = .ok ⟨set.root, [set.render]⟩ := fun hlength =>
    compile_singleton (hroot.compile_render hlength)
  refine ⟨⟨?_, ?_⟩, ⟨?_, compile_tooLong⟩, ?_⟩
  · rintro ⟨again, hagain, -⟩
    by_contra hlong
    rw [compile_tooLong (by omega)] at hagain
    cases hagain
  · exact fun hlength => ⟨_, hshort hlength, rfl⟩
  · intro htooLong
    by_contra hlength
    rw [hshort (by omega)] at htooLong
    cases htooLong
  · intro others other hother
    refine ⟨fun he => ?_, fun he => congrArg Shape.render he⟩
    have hrun := (isRoot_of_compile hother).run_render
    have he' : other.root.render = set.root.render := he
    rw [he', hroot.run_render] at hrun
    exact (Except.ok.inj hrun).symm

/-- Two fragments with a name in quotes and element shapes, and one rule with other blanks and other
brackets that has the same rendering and so the same root. -/
theorem compile_render_iff_elements :
    ∃ set other again, compile ["b:[x, {y:[]}]", "'a c', b:[{x}]"] = .ok set ∧
      compile ["b:[{x},y:[],x],'a c'"] = .ok other ∧ other.render = set.render ∧
      other.root = set.root ∧ compile [set.render] = .ok again ∧ again.root = set.root := by
  let root := Shape.object
    [("a c", .key), ("b", .array [.object [("x", .key)], .object [("y", .array [])]])]
  have hset : compile ["b:[x, {y:[]}]", "'a c', b:[{x}]"] =
      .ok ⟨root, ["b:[x, {y:[]}]", "'a c', b:[{x}]"]⟩ := by
    decide +kernel
  have hother : compile ["b:[{x},y:[],x],'a c'"] = .ok ⟨root, ["b:[{x},y:[],x],'a c'"]⟩ := by
    decide +kernel
  obtain ⟨hagain, -, hinjective⟩ := compile_render_iff hset
  obtain ⟨again, hcompile, hroot⟩ := hagain.mpr (by decide +kernel)
  exact ⟨_, _, again, hset, hother, rfl, (hinjective _ _ hother).mp rfl, hcompile, hroot⟩

end Allowlist.RuleSet
