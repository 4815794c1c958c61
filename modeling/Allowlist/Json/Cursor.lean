import Allowlist.Data.Schema

/-!
# Json.Cursor — places in a JSON text

A cursor is what is left to read and the place that has been reached.  A place is a line, counted
from one, and the number of bytes read on that line.  `Read` is a reader that moves a cursor and may
fail at a place.
-/

namespace Allowlist.Json

structure Place where
  line : Nat
  column : Nat
deriving DecidableEq

structure Cursor where
  rest : List Char
  place : Place

/-- What is wrong with a text. -/
inductive Reason where
  | endOfList
  | endOfObject
  | endOfString
  | endOfValue
  | expectedColon
  | expectedListEnd
  | expectedObjectEnd
  | expectedIdent
  | expectedValue
  | invalidEscape
  | invalidNumber
  | numberOutOfRange
  | controlCharacter
  | keyMustBeString
  | loneSurrogate
  | brokenSurrogate
  | trailingComma
  | trailingCharacters
  /-- The text is in order, but it does not have the wanted form. -/
  | mismatch (cause : Mismatch)
deriving DecidableEq

structure Error where
  reason : Reason
  place : Place
deriving DecidableEq

namespace Reason

def message : Reason → String
  | endOfList => "EOF while parsing a list"
  | endOfObject => "EOF while parsing an object"
  | endOfString => "EOF while parsing a string"
  | endOfValue => "EOF while parsing a value"
  | expectedColon => "expected `:`"
  | expectedListEnd => "expected `,` or `]`"
  | expectedObjectEnd => "expected `,` or `\x7d`"
  | expectedIdent => "expected ident"
  | expectedValue => "expected value"
  | invalidEscape => "invalid escape"
  | invalidNumber => "invalid number"
  | numberOutOfRange => "number out of range"
  | controlCharacter =>
    "control character (\\u0000-\\u001F) found while parsing a string"
  | keyMustBeString => "key must be a string"
  | loneSurrogate => "lone leading surrogate in hex escape"
  | brokenSurrogate => "unexpected end of hex escape"
  | trailingComma => "trailing comma"
  | trailingCharacters => "trailing characters"
  | mismatch cause => cause.message

end Reason

/-- The reason, and the place at which it was noticed. -/
def Error.message (e : Error) : String :=
  e.reason.message ++ " at line " ++ toString e.place.line ++ " column " ++ toString e.place.column

/-! ### Moving -/

namespace Place

def start : Place := ⟨1, 0⟩

/-- The place after one more character. -/
def after (place : Place) (c : Char) : Place :=
  if c = '\n' then ⟨place.line + 1, 0⟩ else ⟨place.line, place.column + c.utf8Size⟩

/-- The place after so many more bytes of the text, or at its end. -/
def afterBytes : Nat → List Char → Place → Place
  | 0, _, place => place
  | _, [], place => place
  | n + 1, c :: cs, place =>
    if c.utf8Size ≤ n + 1 then afterBytes (n + 1 - c.utf8Size) cs (place.after c)
    else ⟨place.line, place.column + (n + 1)⟩

end Place

namespace Cursor

def ofText (text : String) : Cursor := ⟨text.toList, .start⟩

/-- The place of the next byte, which errors about a byte that was only looked at name. -/
def ahead (cursor : Cursor) : Place :=
  Place.afterBytes 1 cursor.rest cursor.place

/-- JSON knows four blanks. -/
def isBlank (c : Char) : Bool :=
  c == ' ' || c == '\n' || c == '\t' || c == '\r'

/-- The place after the blanks at the start of a text, and what follows them. -/
def blanks : List Char → Place → Cursor
  | [], place => ⟨[], place⟩
  | c :: cs, place => if isBlank c then blanks cs (place.after c) else ⟨c :: cs, place⟩

def skipBlanks (cursor : Cursor) : Cursor :=
  blanks cursor.rest cursor.place

end Cursor

/-- A reader that moves a cursor and may fail. -/
abbrev Read := StateT Cursor (Except Error)

namespace Read

/-- Fails at the place that has been reached. -/
def fail {α : Type} (reason : Reason) : Read α := do
  throw ⟨reason, (← get).place⟩

/-- Fails at the next byte, which was only looked at. -/
def failAhead {α : Type} (reason : Reason) : Read α := do
  throw ⟨reason, (← get).ahead⟩

/-- The next character, not read yet. -/
def peek : Read (Option Char) := do
  return (← get).rest.head?

/-- Reads one character, if there is one. -/
def skip : Read Unit :=
  modify fun cursor =>
    match cursor.rest with
    | [] => cursor
    | c :: cs => ⟨cs, cursor.place.after c⟩

/-- Reads blanks, and looks at the character after them. -/
def peekToken : Read (Option Char) := do
  modify Cursor.skipBlanks
  peek

end Read

end Allowlist.Json
