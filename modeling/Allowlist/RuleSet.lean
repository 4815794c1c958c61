import Allowlist.Rule.Reduction
import Allowlist.Shape.Trace

/-!
# RuleSet — rules compiled together

A rule set permits what any of its rules permits.  Equal rules are compiled once; the shapes of
the others merge in the order of the list.
-/

namespace Allowlist

/-- The compiled shape, and the rules it stands for, each once. -/
structure RuleSet where
  root : Shape
  rules : List String
deriving DecidableEq

/-- How one path fared: its hops and the walk from the root, if it is a path at all. -/
structure Report where
  path : String
  permitted : Bool
  hops : Option (List Hop)
  root : Option Trace

namespace RuleSet

variable [Shape.MemberOrder]

/-- The union of the shapes of several rules. -/
def mergeRoots : List Shape → Except Rule.Error Shape
  | [] => .error .noRules
  | root :: roots =>
    roots.foldlM (fun merged root => (Shape.merge [] merged root).mapError .conflict) root

/-- The rule set of a list of rules; the error is that of the first rule that has one. -/
def compile (rules : List String) : Except Rule.Error RuleSet := do
  let rules := Distinct.ofList rules
  let roots ← rules.mapM Rule.compile
  let root ← mergeRoots roots
  return ⟨root, rules⟩

/-- Whether the rules permit the path; a text that is not a path is never permitted. -/
def permits (set : RuleSet) (path : String) : Bool :=
  (Path.tokenize? path).any set.root.accepts

/-- The match of the path with every decision recorded. -/
def report (set : RuleSet) (path : String) : Report :=
  match Path.tokenize? path with
  | none => ⟨path, false, none, none⟩
  | some hops =>
    let root := set.root.trace hops
    ⟨path, root.matched, some hops, some root⟩

/-- Nesting depth of the compiled shape. -/
def depth (set : RuleSet) : Nat :=
  set.root.depth

/-- The rule that denotes the compiled shape. -/
def render (set : RuleSet) : String :=
  set.root.render

end RuleSet

end Allowlist
