/-!
# Yaml.Cursor — places in a YAML text

A cursor is what is left to read and the place that has been reached.  Lines and columns are counted
from zero, columns in characters; the index is the number of bytes before the place.  Five
characters break a line, and a carriage return and a line feed break it once.
-/

namespace Allowlist.Yaml

structure Mark where
  index : Nat
  line : Nat
  column : Nat
deriving DecidableEq

structure Cursor where
  rest : List Char
  mark : Mark

namespace Mark

def start : Mark := ⟨0, 0, 0⟩

/-- The place one character of so many bytes further right. -/
def right (mark : Mark) (size : Nat) : Mark := ⟨mark.index + size, mark.line, mark.column + 1⟩

/-- The start of the next line, after a break of so many bytes. -/
def down (mark : Mark) (size : Nat) : Mark := ⟨mark.index + size, mark.line + 1, 0⟩

/-- Whether both places have the same line and column. -/
def samePlace (a b : Mark) : Bool := a.line == b.line && a.column == b.column

/-- Lines and columns as people count them, from one. -/
def render (mark : Mark) : String :=
  "line " ++ toString (mark.line + 1) ++ " column " ++ toString (mark.column + 1)

/-- A note about a place; the start of a text is not worth one. -/
def note (mark : Mark) : String :=
  if mark.line = 0 ∧ mark.column = 0 then "" else " at " ++ mark.render

end Mark

/-! ### Characters -/

def isBreak (c : Char) : Bool :=
  c == '\n' || c == '\r' || c == '\u0085' || c == '\u2028' || c == '\u2029'

/-- The character that a line break stands for in a text: two separators stand for themselves. -/
def breakChar (c : Char) : Char :=
  if c == '\u2028' || c == '\u2029' then c else '\n'

def isBlank (c : Char) : Bool :=
  c == ' ' || c == '\t'

/-- Characters of names: ASCII letters, digits, the underscore and the hyphen. -/
def isWordChar (c : Char) : Bool :=
  c.isAlphanum || c == '_' || c == '-'

/-- Characters that a text may hold: no controls but tabs and line breaks. -/
def isPrintable (c : Char) : Bool :=
  let n := c.toNat
  c == '\t' || c == '\n' || c == '\r' || (0x20 ≤ n && n ≤ 0x7E) || n == 0x85 ||
    (0xA0 ≤ n && n ≤ 0xD7FF) || (0xE000 ≤ n && n ≤ 0xFFFD) || 0x10000 ≤ n

/-- The text is at its end or at white space. -/
def atSpace : List Char → Bool
  | [] => true
  | c :: _ => isBlank c || isBreak c

/-- The text is at its end or at a line break. -/
def atBreak : List Char → Bool
  | [] => true
  | c :: _ => isBreak c

/-! ### Moving -/

namespace Cursor

/-- The cursor after one more character, or after a line break of two. -/
def next (cursor : Cursor) : Cursor :=
  match cursor.rest with
  | [] => cursor
  | '\r' :: '\n' :: rest => ⟨rest, cursor.mark.down 2⟩
  | c :: rest =>
    ⟨rest, if isBreak c then cursor.mark.down c.utf8Size else cursor.mark.right c.utf8Size⟩

/-- The cursor after so many more characters. -/
def skip : Nat → Cursor → Cursor
  | 0, cursor => cursor
  | n + 1, cursor => skip n cursor.next

/-- The cursor after the characters of a class at the start of the text, none of them a break. -/
def skipWhile (p : Char → Bool) (cursor : Cursor) : Cursor :=
  skip (cursor.rest.takeWhile p).length cursor

/-- The cursor at the end of its line. -/
def skipLine (cursor : Cursor) : Cursor :=
  cursor.skipWhile (!isBreak ·)

/-- The cursor after a byte order mark, if it stands at one that starts a line. -/
def skipOrderMark (cursor : Cursor) : Cursor :=
  if cursor.mark.column = 0 ∧ cursor.rest.head? = some '\ufeff' then cursor.next else cursor

/-- The cursor after a comment, if it stands at one. -/
def skipComment (cursor : Cursor) : Cursor :=
  if cursor.rest.head? == some '#' then cursor.skipLine else cursor

/-- The line starts a document or ends one. -/
def atDocumentMark (cursor : Cursor) : Bool :=
  cursor.mark.column == 0 &&
    match cursor.rest with
    | '-' :: '-' :: '-' :: rest => atSpace rest
    | '.' :: '.' :: '.' :: rest => atSpace rest
    | _ => false

end Cursor

end Allowlist.Yaml
