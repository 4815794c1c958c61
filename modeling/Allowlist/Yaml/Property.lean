import Allowlist.Text.Hex
import Allowlist.Yaml.Token

/-!
# Yaml.Property — anchors, tags and directives

An anchor gives a part a name, by which aliases stand for it.  A tag says what a part is: a handle
and a suffix, or the whole tag in angle brackets.  Directives stand before a document; they give the
version of the language and the meaning of handles.
-/

namespace Allowlist.Yaml.Read

/-! ### Anchors -/

/-- The name after an `&` or a `*`. -/
def anchorName (activity : Activity) : Read String := do
  let start := (← get).mark
  skip
  let name ← takeWhile isWordChar
  let rest := (← get).rest
  let ends := atSpace rest ||
    rest.head?.any (['?', ':', ',', ']', '\x7d', '%', '@', '\x60'].contains ·)
  if name.isEmpty || !ends then failSince .expectedName activity start
  return String.ofList name

def anchor : Read Token.Kind := .anchor <$> anchorName .anchor

def reference : Read Token.Kind := .reference <$> anchorName .reference

/-! ### Tags -/

/-- What is being read when the text of a tag goes wrong. -/
def tagActivity (inDirective : Bool) : Activity :=
  if inDirective then .prefixText else .tagText

/-- The octet that a percent sign and two hexadecimal digits write, if it may stand here. -/
def octet (inDirective : Bool) (start : Mark) (fits : Nat → Bool) (problem : Problem) :
    Read Nat := do
  look 3
  let cursor ← get
  match cursor.rest with
  | '%' :: a :: b :: _ =>
    match Text.digitsValue? 16 0 [a, b] with
    | some n =>
      if !fits n then failSince problem (tagActivity inDirective) start
      set (cursor.skip 3)
      return n
    | none => failSince .expectedOctet (tagActivity inDirective) start
  | _ => failSince .expectedOctet (tagActivity inDirective) start

/-- The octet may be the first one of a character. -/
def isFirstOctet (n : Nat) : Bool := n < 0x80 || 0xC0 ≤ n && n < 0xF8

/-- The octet may be a later one of a character. -/
def isLaterOctet (n : Nat) : Bool := 0x80 ≤ n && n < 0xC0

/-- The number of a character whose first octet gives `value`, with the further octets. -/
def laterOctets (inDirective : Bool) (start : Mark) : (count : Nat) → (value : Nat) → Read Nat
  | 0, value => return value
  | count + 1, value => do
    let n ← octet inDirective start isLaterOctet .invalidLaterOctet
    laterOctets inDirective start count (value * 0x40 + n % 0x40)

/-- The character that octets write; one that is written with too many of them is none, and
neither is one that they cannot write. -/
def octetChar (inDirective : Bool) (start : Mark) : Read Char := do
  let n ← octet inDirective start isFirstOctet .invalidFirstOctet
  if n < 0x80 then return Char.ofNat n
  let value ←
    if n < 0xE0 then laterOctets inDirective start 1 (n % 0x20)
    else if n < 0xF0 then laterOctets inDirective start 2 (n % 0x10)
    else laterOctets inDirective start 3 (n % 0x08)
  return if 0x80 ≤ value ∧ value.isValidChar then Char.ofNat value else '\ufffd'

/-- Characters of tags; those of flow lists only where the whole tag is written. -/
def isTagChar (whole : Bool) (c : Char) : Bool :=
  isWordChar c || [';', '/', '?', ':', '@', '&', '=', '+', '$', '.', '%', '!', '~', '*', '\'', '(',
    ')'].contains c || whole && [',', '[', ']'].contains c

/-- The characters of a tag, after `front`. -/
def tagChars (whole inDirective : Bool) (start : Mark) : (fuel : Nat) → (front : List Char) →
    Read (List Char)
  | 0, front => return front
  | fuel + 1, front => do
    match ← peek with
    | none => return front
    | some c =>
      if !isTagChar whole c then return front
      else if c == '%' then
        let value ← octetChar inDirective start
        tagChars whole inDirective start fuel (front ++ [value])
      else
        skip
        tagChars whole inDirective start fuel (front ++ [c])

/-- The text of a tag, which may be empty only where something stands before it.  A null character
in it hides what comes after. -/
def tagText (whole inDirective follows : Bool) (start : Mark) : Read String := do
  let text ← tagChars whole inDirective start ((← get).rest.length + 1) []
  if text.isEmpty && !follows then failSince .expectedTag (tagActivity inDirective) start
  return String.ofList (text.takeWhile (· != '\x00'))

/-- An exclamation mark, the characters of a name, and a second exclamation mark if there is one. -/
def handleChars (activity : Activity) (start : Mark) : Read (List Char × Bool) := do
  if (← peek) != some '!' then failSince .expectedTagMark activity start
  skip
  let name ← takeWhile isWordChar
  let closed := (← peek) == some '!'
  if closed then skip
  return ('!' :: name ++ (if closed then ['!'] else []), closed)

/-- The handle and the suffix of a tag.  A tag without a handle of its own has the handle `!`; the
tag `!` itself has none. -/
def tag (flow : Bool) : Read Token.Kind := do
  let start := (← get).mark
  look 2
  let (handle, suffix) ←
    if (← get).rest[1]? == some '<' then do
      modify (Cursor.skip 2)
      let text ← tagText true false false start
      if (← peek) != some '>' then failSince .expectedTagEnd .tag start
      skip
      pure ("", text)
    else do
      let (chars, closed) ← handleChars .tag start
      if closed then pure (String.ofList chars, ← tagText false false false start)
      else
        let text := String.ofList (chars.drop 1) ++ (← tagText false false true start)
        pure (if text.isEmpty then ("", "!") else ("!", text))
  look 1
  let rest := (← get).rest
  if !atSpace rest && !(flow && rest.head? == some ',') then
    failSince .expectedSpaceOrBreak .tag start
  return .tag handle suffix

/-! ### Directives -/

/-- The greatest number of digits in a version number. -/
def versionDigits : Nat := 9

def versionNumber (start : Mark) : Read Nat := do
  let cursor ← get
  let digits := cursor.rest.takeWhile Char.isDigit
  set (cursor.skip (min digits.length versionDigits))
  look 1
  if digits.length > versionDigits then failSince .longVersion .versionDirective start
  if digits.isEmpty then failSince .expectedVersion .versionDirective start
  return Nat.ofDigitChars 10 digits 0

/-- The version after its directive's name. -/
def version (start : Mark) : Read Token.Kind := do
  discard (takeWhile isBlank)
  let major ← versionNumber start
  if (← peek) != some '.' then failSince .expectedVersionPoint .versionDirective start
  skip
  let minor ← versionNumber start
  return .version major minor

/-- A handle and what it stands for, after the directive's name. -/
def handle (start : Mark) : Read Token.Kind := do
  discard (takeWhile isBlank)
  let (name, closed) ← handleChars .handleStart start
  if !closed && name != ['!'] then failSince .expectedTagMark .handleEnd start
  if !(← peek).any isBlank then failSince .expectedSpace .tagDirective start
  discard (takeWhile isBlank)
  let text ← tagText true true false start
  if !atSpace (← get).rest then failSince .expectedSpaceOrBreak .tagDirective start
  return .handle (String.ofList name) text

/-- The directive that starts here, with its line. -/
def directive : Read Token.Kind := do
  let start := (← get).mark
  skip
  let name ← takeWhile isWordChar
  if name.isEmpty then failSince .expectedDirective .directive start
  if !atSpace (← get).rest then failSince .invalidDirective .directive start
  let kind ←
    if name = ['Y', 'A', 'M', 'L'] then version start
    else if name = ['T', 'A', 'G'] then handle start
    else failSince .unknownDirective .directive start
  endLine .directive start
  return kind

end Allowlist.Yaml.Read
