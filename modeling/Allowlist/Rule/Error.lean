import Allowlist.Shape.Render

/-!
# Rule.Error — why a rule does not compile

`Rule.Fault` is what can be wrong inside one rule text; `Rule.Error` adds the rule that it was
found in, and the errors of whole rule sets.  The wording of both is in `Error.message`.
-/

namespace Allowlist.Rule

/-- The greatest length of one rule, in bytes of UTF-8. -/
def maxLength : Nat := 8192

/-- The greatest depth of the shape that one rule denotes. -/
def maxDepth : Nat := 32

/-- What is wrong with the groups and entries of a rule. -/
inductive Fault where
  /-- A delimiter has no partner. -/
  | unbalanced (delimiter : Char)
  /-- A group is opened by one kind of delimiter and closed by the other. -/
  | mismatched (opener closer : Char)
  /-- An entry is no key, no keyed group and no group; groups inside it are shown as dots. -/
  | invalidEntry (entry : String)
  /-- An object holds a group without a key. -/
  | unnamedGroup
  /-- A reference names no parked group. -/
  | danglingReference (index : Nat)
  /-- A name is declared with two shapes that do not merge. -/
  | conflict (path : List String)
  /-- A group is nested too deeply. -/
  | tooDeep (depth : Nat)
deriving DecidableEq

/-- Why a rule, or a list of rules, does not compile. -/
inductive Error where
  | noRules
  | emptyRule
  | tooLong (length : Nat)
  | invalidChars (rule : String) (chars : List Char)
  | fault (rule : String) (cause : Fault)
  /-- Two rules of a list do not merge. -/
  | conflict (path : List String)
deriving DecidableEq

namespace Error

/-- The sentence about a conflict at `path`. -/
def conflictMessage (path : List String) : String :=
  let key := Shape.renderPath path
  if key = "" then "rules declare conflicting top-level shapes"
  else "rules declare conflicting shapes for key \"" ++ key ++ "\""

/-- The sentence about a fault in `rule`. -/
def faultMessage (rule : String) : Fault → String
  | .unbalanced delimiter =>
    "rule \"" ++ rule ++ "\" has an unbalanced '" ++ delimiter.toString ++ "'"
  | .mismatched opener closer =>
    "rule \"" ++ rule ++ "\" opens a group with '" ++ opener.toString ++ "' but closes it with '" ++
      closer.toString ++ "'"
  | .invalidEntry entry =>
    if entry = "" then "rule \"" ++ rule ++ "\" has an empty entry"
    else "rule \"" ++ rule ++ "\" has an invalid entry \"" ++ entry ++ "\""
  | .unnamedGroup => "rule \"" ++ rule ++ "\" has a group without a key inside an object"
  | .danglingReference index => "rule \"" ++ rule ++ "\" refers to unknown group " ++ toString index
  | .conflict path => conflictMessage path
  | .tooDeep depth =>
    "rule nesting depth is " ++ toString depth ++ ", but maximum allowed is " ++ toString maxDepth

/-- The sentence that tells a person what is wrong. -/
def message : Error → String
  | noRules => "no permit rules given"
  | emptyRule => "permit rule is empty"
  | tooLong length =>
    "rule length is " ++ toString length ++ ", but maximum allowed is " ++ toString maxLength
  | invalidChars rule chars =>
    "rule \"" ++ rule ++ "\" contains invalid characters: \"" ++ String.ofList chars ++ "\""
  | fault rule cause => faultMessage rule cause
  | conflict path => conflictMessage path

end Error

end Allowlist.Rule
