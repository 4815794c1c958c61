import Allowlist.Rule.Group

/-!
# Rule.Reduction — from rule text to shape

A rule is reduced from the inside out.  Each step builds one innermost group, parks it, and puts a
reference in its place:

    key:{x:[y:{a, b}]}
    key:{x:[y:0]}          0 = {a, b}
    key:{x:1}              1 = [y:0]
    key:2                  2 = {x:1}

A step takes one closing delimiter away, so the reduction ends.  What is left is one reference, or
the entries of an implicit object.  `Rule.compile` checks length, alphabet and blankness first.
-/

namespace Allowlist.Rule

/-- The working text and the parked groups that it refers to. -/
structure Reduction where
  text : List Symbol
  slots : Slots

variable [Shape.MemberOrder]

namespace Reduction

/-- The start of the reduction of a rule. -/
def start (chars : List Char) : Reduction :=
  ⟨Symbol.ofChars chars, []⟩

/-- Builds one innermost group; `none` when there is none left. -/
def step (state : Reduction) : Except Fault (Option Reduction) := do
  match ← Symbol.innermost? state.text with
  | none => return none
  | some group =>
    let (parked, slots) ← Group.build group.kind group.body state.slots
    return some ⟨group.replace slots.length, slots ++ [some parked]⟩

/-- The shape that a text without groups denotes. -/
def finish (state : Reduction) : Except Fault Shape := do
  let text := Symbol.trim state.text
  let (root, _) ← match Entry.reference? text with
    | some index => state.slots.take index
    | none => Group.build .object text state.slots
  return root.shape

theorem closers_lt_of_step {state next : Reduction} (h : state.step = .ok (some next)) :
    Symbol.closers next.text < Symbol.closers state.text := by
  unfold step at h
  cases hi : Symbol.innermost? state.text with
  | error e => simp [hi, bind, Except.bind] at h
  | ok found =>
    cases found with
    | none => simp [hi, bind, Except.bind, pure, Except.pure] at h
    | some group =>
      cases hb : Group.build group.kind group.body state.slots with
      | error e => simp [hi, hb, bind, Except.bind] at h
      | ok built =>
        simp only [hi, hb, bind, Except.bind, pure, Except.pure, Except.ok.injEq,
          Option.some.injEq] at h
        subst h
        exact Symbol.closers_replace_lt _ hi

/-- The shape that the reduction ends in. -/
def run (state : Reduction) : Except Fault Shape :=
  match _h : state.step with
  | .error e => .error e
  | .ok none => state.finish
  | .ok (some next) => next.run
termination_by Symbol.closers state.text
decreasing_by exact closers_lt_of_step _h

end Reduction

/-- The characters of the rule that no rule may hold, each once. -/
def invalidChars (rule : String) : List Char :=
  Distinct.ofList (rule.toList.filter fun c => !isRuleChar c)

/-- The shape that a rule denotes. -/
def compile (rule : String) : Except Error Shape :=
  if rule.utf8ByteSize > maxLength then .error (.tooLong rule.utf8ByteSize)
  else if invalidChars rule ≠ [] then .error (.invalidChars rule (invalidChars rule))
  else if rule.toList.all (· == ' ') then .error .emptyRule
  else (Reduction.start rule.toList).run.mapError (.fault rule)

end Allowlist.Rule
