import Allowlist.Proofs.Rule.Reordered
import Allowlist.Proofs.RuleSet.Pairs

/-!
# Proofs.RuleSet.Order — order never matters

Whether rules compile together, and what they permit, is said of the shapes of single rules, in any
order: some rule there is, each compiles, any two agree (`exists_compile_iff`), and one of them
accepts the path (`root_spec`).  All of it holds of alike shapes alike.  So the rules may be listed
in another order, and within each rule the entries may be (`compile_order_irrelevant`).
-/

namespace Allowlist.RuleSet

open Allowlist.Rule (CompileAlike Reordered)

variable {rules rules' : List String}

/-- Rules compile together when rules that compile alike do. -/
theorem exists_compile_of_matched (h : Matched CompileAlike rules rules')
    (hset : ∃ set, compile rules = .ok set) : ∃ set, compile rules' = .ok set := by
  obtain ⟨hne, heach, hagree⟩ := exists_compile_iff.mp hset
  refine exists_compile_iff.mpr ⟨mt h.eq_nil_iff.mpr hne, fun rule' hrule' => ?_, ?_⟩
  · obtain ⟨rule, hrule, hrules⟩ := h.right rule' hrule'
    obtain ⟨s, hs⟩ := heach rule hrule
    obtain ⟨s', hs', -⟩ := hrules.left s hs
    exact ⟨s', hs'⟩
  · intro a' ha' b' hb' s' t' hs' ht'
    obtain ⟨a, ha, hrules⟩ := h.right a' ha'
    obtain ⟨s, hs, hss⟩ := hrules.right s' hs'
    obtain ⟨b, hb, hrules⟩ := h.right b' hb'
    obtain ⟨t, ht, htt⟩ := hrules.right t' ht'
    exact (hss.agree_iff htt).mp (hagree a ha b hb s t hs ht)

/-- Rule sets of rules that compile alike permit the same paths. -/
theorem permits_eq_of_matched (h : Matched CompileAlike rules rules') {set set' : RuleSet}
    (hset : compile rules = .ok set) (hset' : compile rules' = .ok set') (path : String) :
    set.permits path = set'.permits path := by
  have haccepts : ∀ hops, set.root.accepts hops = true ↔ set'.root.accepts hops = true := by
    intro hops
    rw [(root_spec hset).2, (root_spec hset').2]
    refine h.exists_iff fun rule rule' hrules => ⟨?_, ?_⟩
    · rintro ⟨s, hs, hhops⟩
      obtain ⟨s', hs', halike⟩ := hrules.left s hs
      exact ⟨s', hs', halike.accepts hops ▸ hhops⟩
    · rintro ⟨s', hs', hhops⟩
      obtain ⟨s, hs, halike⟩ := hrules.right s' hs'
      exact ⟨s, hs, (halike.accepts hops).trans hhops⟩
  rw [Bool.eq_iff_iff, permits_eq_true_iff, permits_eq_true_iff]
  exact exists_congr fun hops => and_congr_right fun _ => haccepts hops

/-- Rules with their entries moved, at any depth, and then listed in any order, compile together
exactly when they did before, and permit the same paths. -/
theorem compile_order_irrelevant {inside : List String}
    (hinside : List.Forall₂ (fun rule rule' => rule' = rule ∨ Reordered rule rule') rules inside)
    (hperm : inside.Perm rules') :
    ((∃ set, compile rules = .ok set) ↔ ∃ set, compile rules' = .ok set) ∧
      ∀ set set', compile rules = .ok set → compile rules' = .ok set' →
        ∀ path, set.permits path = set'.permits path := by
  have heach : List.Forall₂ CompileAlike rules inside := by
    refine hinside.imp fun rule rule' hrule => ?_
    rcases hrule with rfl | hrule
    · exact .refl _
    · exact hrule.compileAlike
  have hmatched : Matched CompileAlike rules rules' :=
    (Matched.of_forall₂ heach).congr (fun _ => Iff.rfl) fun _ => hperm.symm.mem_iff
  have hback : Matched CompileAlike rules' rules := hmatched.symm fun _ _ => CompileAlike.symm
  refine ⟨⟨exists_compile_of_matched hmatched, exists_compile_of_matched hback⟩, ?_⟩
  intro set set' hset hset' path
  exact permits_eq_of_matched hmatched hset hset' path

/-- Two rules in the other order, one of them with its entries swapped and the elements of its array
too: the shapes differ, and the paths that they permit do not. -/
theorem compile_order_irrelevant_nested :
    Reordered "k:[{a}, {b}],z" "z,k:[{b}, {a}]" ∧
      (∃ set, compile ["x", "z,k:[{b}, {a}]"] = .ok set) ∧
      ∀ set set', compile ["k:[{a}, {b}],z", "x"] = .ok set →
        compile ["x", "z,k:[{b}, {a}]"] = .ok set' →
        ∀ path, set.permits path = set'.permits path := by
  have hgroup : ∀ c, Rule.isNameChar c = true →
      Rule.GroupReordered ['\x7b', c, '\x7d'] ['\x7b', c, '\x7d'] := by
    intro c hc
    have hentry : Rule.EntryText .object (some (String.ofList [c]), .key) [c] :=
      .key_of_padded (.single hc) (.self [c])
    exact (Rule.GroupText.group (.entries (.one hentry))).reordered_self
  have hblank : ∀ core, Rule.Padded core (' ' :: core) := fun core =>
    ⟨[' '], [], by simp [Rule.Blank], Rule.Blank.nil, by simp⟩
  have harray : Rule.GroupReordered "[{a}, {b}]".toList "[{b}, {a}]".toList :=
    .group (.entries (.moved (List.cons_ne_nil "{a}".toList [" {b}".toList])
      (.cons (.alone (hgroup 'a' (by decide)) (.self _) (hblank _))
        (.cons (.alone (hgroup 'b' (by decide)) (hblank _) (.self _)) .nil))
      (List.Perm.swap _ _ [])))
  have hrule : Reordered "k:[{a}, {b}],z" "z,k:[{b}, {a}]" := by
    refine ⟨by decide +kernel, .entries (.moved
      (List.cons_ne_nil "k:[{a}, {b}]".toList ["z".toList]) (.cons ?_ (.cons ?_ .nil))
      (List.Perm.swap "z".toList "k:[{b}, {a}]".toList []))⟩
    · exact .keyed (.single (by decide)) (.self _) (.self _) harray (.self _) (.self _)
    · exact .key (.single (by decide)) (.self _) (.self _)
  have horder := compile_order_irrelevant
    (.cons (.inr hrule) (.cons (.inl rfl) .nil)) (List.Perm.swap "x" "z,k:[{b}, {a}]" [])
  have hcompile : compile ["k:[{a}, {b}],z", "x"] =
      .ok ⟨.object [("k", .array [.object [("a", .key)], .object [("b", .key)]]),
        ("x", .key), ("z", .key)], ["k:[{a}, {b}],z", "x"]⟩ := by
    decide +kernel
  exact ⟨hrule, horder.1.mp ⟨_, hcompile⟩, horder.2⟩

end Allowlist.RuleSet
