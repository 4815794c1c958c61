import Allowlist.Json.Cursor
import Allowlist.Text.Hex

/-!
# Json.Lexeme — words, numbers and strings

The parts of a JSON text that have no parts of their own.  A string is read after its opening quote;
its escapes name characters by letters or by UTF-16 units, of which a high one needs a low one.
-/

namespace Allowlist.Json.Read

/-! ### Words -/

/-- Reads exactly these characters. -/
def word : List Char → Read Unit
  | [] => return ()
  | c :: cs => do
    match ← peek with
    | none => fail .endOfValue
    | some d =>
      if c = d then do skip; word cs
      else failAhead .expectedIdent

/-! ### Strings -/

/-- A UTF-16 unit, written as four hexadecimal digits. -/
def unit : Read Nat := do
  let cursor ← get
  let four := cursor.rest.take 4
  if four.foldl (fun n c => n + c.utf8Size) 0 < 4 then
    set (⟨[], Place.afterBytes 4 cursor.rest cursor.place⟩ : Cursor)
    fail .endOfString
  match Text.digitsValue? 16 0 four with
  | some n =>
    set (⟨cursor.rest.drop 4, Place.afterBytes 4 cursor.rest cursor.place⟩ : Cursor)
    return n
  | none => throw ⟨.invalidEscape, Place.afterBytes 4 cursor.rest cursor.place⟩

/-- Reads the given character inside a surrogate pair. -/
def pairMark (c : Char) : Read Unit := do
  match ← peek with
  | none => fail .endOfString
  | some d => if c = d then skip else failAhead .brokenSurrogate

/-- The character that a `\u` escape names, after its `u`. -/
def unicodeEscape : Read Char := do
  let high ← unit
  if 0xDC00 ≤ high ∧ high ≤ 0xDFFF then fail .loneSurrogate
  if high < 0xD800 ∨ 0xDBFF < high then return Char.ofNat high
  pairMark '\\'
  pairMark 'u'
  let low ← unit
  if low < 0xDC00 ∨ 0xDFFF < low then fail .loneSurrogate
  return Char.ofNat (0x10000 + (high - 0xD800) * 0x400 + (low - 0xDC00))

/-- The character that an escape names, after its backslash. -/
def escape : Read Char := do
  match ← peek with
  | none => fail .endOfString
  | some 'u' => skip; unicodeEscape
  | some c =>
    match [('"', '"'), ('\\', '\\'), ('/', '/'), ('b', '\x08'), ('f', '\x0c'), ('n', '\n'),
        ('r', '\r'), ('t', '\t')].lookup c with
    | some value => skip; return value
    | none => failAhead .invalidEscape

/-- The rest of a string; `fuel` bounds the number of its characters. -/
def stringRest : (fuel : Nat) → (front : List Char) → Read String
  | 0, _ => fail .endOfString
  | fuel + 1, front => do
    match ← peek with
    | none => fail .endOfString
    | some '"' => skip; return String.ofList front.reverse
    | some '\\' => skip; stringRest fuel ((← escape) :: front)
    | some c =>
      if c < ' ' then failAhead .controlCharacter
      else do skip; stringRest fuel (c :: front)

/-- The string after its opening quote. -/
def string : Read String := do
  stringRest ((← get).rest.length + 1) []

/-! ### Numbers -/

/-- Reads as many digits as there are. -/
def digits : Read (List Char) := do
  let cursor ← get
  let ds := cursor.rest.takeWhile Char.isDigit
  set (⟨cursor.rest.drop ds.length, Place.afterBytes ds.length cursor.rest cursor.place⟩ : Cursor)
  return ds

/-- The digits appended to a number as long as it stays at or below `greatest`, and the others. -/
def appendUpTo (greatest : Nat) : Nat → List Char → Nat × List Char
  | n, [] => (n, [])
  | n, c :: cs =>
    let next := 10 * n + (c.toNat - '0'.toNat)
    if next ≤ greatest then appendUpTo greatest next cs else (n, c :: cs)

/-- The greatest number made of the digits before and after the point; further ones only count. -/
def greatestSignificand : Nat := Nat.pow 2 64 - 1

/-- The greatest number that an exponent may write. -/
def greatestExponent : Nat := Nat.pow 2 31 - 1

/-- The number that a fraction or an exponent ends. -/
def real (negative : Bool) (significand : Nat) (exponent : Int) : Read Data := do
  match Binary.scale? significand exponent with
  | some b => return .real (b.shortest .toEven negative)
  | none => fail .numberOutOfRange

/-- The rest of a number from its `e` on.  Too great an exponent is an error as soon as it is known
to be, unless it makes the number a zero. -/
def scaled (negative : Bool) (significand : Nat) (exponent : Int) : Read Data := do
  skip
  let down ← match ← peek with
    | some '+' => skip; pure false
    | some '-' => skip; pure true
    | _ => pure false
  let start ← get
  match ← digits with
  | [] =>
    match ← peek with
    | none => fail .endOfValue
    | some _ => failAhead .invalidNumber
  | ds =>
    match appendUpTo greatestExponent 0 ds with
    | (n, []) => real negative significand (if down then exponent - n else exponent + n)
    | (_, left) =>
      if significand = 0 ∨ down then real negative 0 0
      else
        let taken := ds.length - left.length + 1
        throw ⟨.numberOutOfRange, Place.afterBytes taken start.rest start.place⟩

/-- The rest of a number from its point on. -/
def fraction (negative : Bool) (significand : Nat) (exponent : Int) : Read Data := do
  skip
  match ← digits with
  | [] =>
    match ← peek with
    | none => failAhead .endOfValue
    | some _ => failAhead .invalidNumber
  | ds =>
    let (n, left) := appendUpTo greatestSignificand significand ds
    let exponent := exponent - (ds.length - left.length : Nat)
    match ← peek with
    | some 'e' | some 'E' => scaled negative n exponent
    | _ => real negative n exponent

/-- The number after its sign. -/
def number (negative : Bool) : Read Data := do
  let whole ← match ← peek with
    | none => fail .endOfValue
    | some '0' => do
      skip
      if (← peek).any Char.isDigit then failAhead .invalidNumber
      pure ['0']
    | some c => if c.isDigit then digits else failAhead .invalidNumber
  let (n, left) := appendUpTo greatestSignificand 0 whole
  match ← peek with
  | some '.' => fraction negative n left.length
  | some 'e' | some 'E' => scaled negative n left.length
  | _ =>
    if !left.isEmpty then real negative n left.length
    else if !negative then return .int n
    else if 0 < n ∧ n ≤ Nat.pow 2 63 then return .int (-n)
    else real true n 0

end Allowlist.Json.Read
