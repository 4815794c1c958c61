import Allowlist.Cut
import Allowlist.Rule.Error

/-!
# Rule.Symbol — the working text of a rule

While a rule is read, its groups are built from the inside out.  A group that has been built is
parked, and one reference symbol takes its place in the text, so the working text is a list of
characters and references.  A reference is not a character, so no rule text can forge one and no
character can become part of one.
-/

namespace Allowlist.Rule

/-- The two kinds of group: braces for objects, brackets for arrays. -/
inductive GroupKind where
  | object
  | array
deriving DecidableEq

namespace GroupKind

def opener : GroupKind → Char
  | object => '{'
  | array => '['

def closer : GroupKind → Char
  | object => '}'
  | array => ']'

/-- The kind of group that the character opens. -/
def ofOpener? (c : Char) : Option GroupKind :=
  if c = '{' then some object else if c = '[' then some array else none

/-- The kind of group that the character closes. -/
def ofCloser? (c : Char) : Option GroupKind :=
  if c = '}' then some object else if c = ']' then some array else none

end GroupKind

/-- A symbol of the working text. -/
inductive Symbol where
  | char (c : Char)
  /-- A reference to the group parked at `index`. -/
  | group (index : Nat)
deriving DecidableEq

namespace Symbol

def opens? : Symbol → Option GroupKind
  | char c => GroupKind.ofOpener? c
  | group _ => none

def closes? : Symbol → Option GroupKind
  | char c => GroupKind.ofCloser? c
  | group _ => none

/-- The text of a rule before anything is built. -/
def ofChars (chars : List Char) : List Symbol :=
  chars.map char

/-- The number of closing delimiters. -/
def closers (text : List Symbol) : Nat :=
  text.countP (·.closes?.isSome)

/-- The text without the blanks at both ends. -/
def trim (text : List Symbol) : List Symbol :=
  ((text.dropWhile (· == char ' ')).reverse.dropWhile (· == char ' ')).reverse

/-- The text as an error shows it, every reference as three dots. -/
def describe (text : List Symbol) : String :=
  String.ofList <| text.flatMap fun
    | char c => [c]
    | group _ => ['.', '.', '.']

/-! ### Innermost groups -/

/-- A group without groups inside, and what stands around it. -/
structure Innermost where
  before : List Symbol
  kind : GroupKind
  body : List Symbol
  after : List Symbol

/-- The group that the first closing delimiter and the nearest opening delimiter before it bound,
or `none` when no delimiter is left. -/
def innermost? (text : List Symbol) : Except Fault (Option Innermost) :=
  match Cut.first? closes? text with
  | none =>
    match text.findSome? opens? with
    | some kind => .error (.unbalanced kind.opener)
    | none => .ok none
  | some (front, closed, after) =>
    match Cut.last? opens? front with
    | none => .error (.unbalanced closed.closer)
    | some (before, opened, body) =>
      if opened = closed then .ok (some ⟨before, closed, body, after⟩)
      else .error (.mismatched opened.opener closed.closer)

/-- The text with one reference in the place of a group. -/
def Innermost.replace (group : Innermost) (index : Nat) : List Symbol :=
  group.before ++ .group index :: group.after

/-- A reference in the place of a group leaves one closing delimiter less. -/
theorem closers_replace_lt {text : List Symbol} {group : Innermost} (index : Nat)
    (h : innermost? text = .ok (some group)) : closers (group.replace index) < closers text := by
  unfold innermost? at h
  split at h
  · split at h <;> simp at h
  · next front closed after hfirst =>
    split at h
    · simp at h
    · next before opened body hlast =>
      split at h
      · simp only [Except.ok.injEq, Option.some.injEq] at h
        subst h
        obtain ⟨c, rfl, hc, -⟩ := Cut.eq_of_first? hfirst
        obtain ⟨o, rfl, -, -⟩ := Cut.eq_of_last? hlast
        have hr : (Symbol.group index).closes? = none := rfl
        simp only [Innermost.replace, closers, List.countP_append, List.countP_cons, hc, hr,
          Option.isSome_some, Option.isSome_none, if_true, Bool.false_eq_true, if_false]
        omega
      · simp at h

end Symbol

end Allowlist.Rule
