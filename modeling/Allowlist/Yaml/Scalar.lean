import Allowlist.Text.Hex
import Allowlist.Yaml.Problem

/-!
# Yaml.Scalar — texts in a YAML document

A text is written plain, in single or double quotes, or as a block of lines.  White space around a
line break is folded: one break is a blank, each further one a line break.  A plain text ends before
a colon or a comment that white space sets apart, inside brackets also before an indicator of those.
-/

namespace Allowlist.Yaml

/-! ### White space inside a text -/

/-- White space inside a text: the blanks before any line break, and the breaks. -/
structure Gap where
  blanks : List Char
  /-- There is a line break, perhaps one that stands for nothing. -/
  broken : Bool
  /-- What the first break stands for. -/
  first : List Char
  /-- What the further breaks stand for. -/
  more : List Char

namespace Gap

def empty : Gap := ⟨[], false, [], []⟩

/-- A line break that stands for nothing. -/
def escaped : Gap := ⟨[], true, [], []⟩

/-- What the white space stands for. -/
def folded (gap : Gap) : List Char :=
  if !gap.broken then gap.blanks
  else if gap.first = ['\n'] then (if gap.more.isEmpty then [' '] else gap.more)
  else gap.first ++ gap.more

/-- The white space with one more blank. -/
def addBlank (gap : Gap) (c : Char) : Gap :=
  if gap.broken then gap else { gap with blanks := gap.blanks ++ [c] }

/-- The white space with one more line break. -/
def addBreak (gap : Gap) (c : Char) : Gap :=
  if gap.broken then { gap with more := gap.more ++ [breakChar c] }
  else ⟨[], true, [breakChar c], []⟩

end Gap

/-- The rest of the white space inside a text that starts at `start`.  After a line break a tab must
not stand left of the column `indent`. -/
def Read.gap (indent : Nat) (start : Mark) : (fuel : Nat) → Gap → Read Gap
  | 0, gap => return gap
  | fuel + 1, gap => do
    look 1
    let cursor ← get
    match cursor.rest with
    | [] => return gap
    | c :: _ =>
      if isBreak c then
        skipBreak
        Read.gap indent start fuel (gap.addBreak c)
      else if isBlank c then
        if gap.broken && c == '\t' && cursor.mark.column < indent then
          failSince .tabIndentation .plainText start
        skip
        Read.gap indent start fuel (gap.addBlank c)
      else return gap

/-! ### Plain texts -/

/-- Characters that have a meaning inside brackets and braces. -/
def isFlowIndicator (c : Char) : Bool :=
  c == ',' || c == '[' || c == ']' || c == '\x7b' || c == '\x7d'

/-- Characters that say at the start of a part what kind of part it is. -/
def startIndicators : List Char :=
  ['#', '&', '*', '!', '|', '>', '\'', '"', '%', '@', '\x60']

/-- Whether a plain text can start here. -/
def startsPlain (flow : Bool) : List Char → Bool
  | [] => false
  | c :: rest =>
    if atSpace [c] then false
    else if c == '-' then !atSpace rest
    else if c == '?' || c == ':' then !flow && !atSpace rest
    else !isFlowIndicator c && !startIndicators.contains c

/-- A colon right before an indicator, which no text inside brackets may hold. -/
def isTightColon : List Char → Bool
  | ':' :: c :: _ => isFlowIndicator c || c == '?'
  | _ => false

/-- The number of characters of the word of a plain text that starts here. -/
def wordLength (flow : Bool) : List Char → Nat
  | [] => 0
  | c :: rest =>
    if atSpace [c] || c == ':' && atSpace rest || flow && isFlowIndicator c ||
        flow && isTightColon (c :: rest) then 0
    else wordLength flow rest + 1

/-- The rest of a plain text that starts at `start`, after `front` and the white space `gap`, and
whether a line break follows it.  Lines after the first must be indented to `indent`, except inside
brackets. -/
def Read.plainRest (flow : Bool) (indent : Nat) (start : Mark) :
    (fuel : Nat) → (front : List Char) → (gap : Gap) → Read (List Char × Bool)
  | 0, front, gap => return (front, gap.broken)
  | fuel + 1, front, gap => do
    look 4
    let cursor ← get
    if cursor.atDocumentMark || cursor.rest.head? == some '#' then return (front, gap.broken)
    let n := wordLength flow cursor.rest
    let stop := cursor.skip n
    set stop
    look 2
    if flow && isTightColon stop.rest then failSince .unexpectedColon .plainText start
    let (front, gap) :=
      if n = 0 then (front, gap) else (front ++ gap.folded ++ cursor.rest.take n, Gap.empty)
    if stop.rest.isEmpty || !atSpace stop.rest then return (front, gap.broken)
    let gap ← Read.gap indent start (stop.rest.length + 1) gap
    if !flow && (← get).mark.column < indent then return (front, gap.broken)
    plainRest flow indent start fuel front gap

/-- The plain text that starts here, and whether a line break follows it. -/
def Read.plain (flow : Bool) (indent : Nat) : Read (String × Bool) := do
  let cursor ← get
  let (text, broken) ← plainRest flow indent cursor.mark (cursor.rest.length + 1) [] .empty
  return (String.ofList text, broken)

/-! ### Quoted texts -/

/-- The character that so many hexadecimal digits name, in a text that starts at `start`. -/
def Read.codePoint (start : Mark) (digits : Nat) : Read Char := do
  look digits
  let cursor ← get
  let ds := cursor.rest.take digits
  match if ds.length < digits then none else Text.digitsValue? 16 0 ds with
  | none => failSince .expectedHexDigit .escape start
  | some n =>
    if n < 0xD800 ∨ 0xDFFF < n ∧ n < 0x110000 then
      set (cursor.skip digits)
      return Char.ofNat n
    else failSince .invalidCodePoint .escape start

/-- The escapes of one letter. -/
def shortEscapes : List (Char × Char) :=
  [('0', '\x00'), ('a', '\x07'), ('b', '\x08'), ('t', '\t'), ('\t', '\t'), ('n', '\n'),
    ('v', '\x0b'), ('f', '\x0c'), ('r', '\r'), ('e', '\x1b'), (' ', ' '), ('"', '"'), ('/', '/'),
    ('\\', '\\'), ('N', '\u0085'), ('_', '\u00a0'), ('L', '\u2028'), ('P', '\u2029')]

/-- The character that an escape names, from its backslash on, in a text that starts at `start`. -/
def Read.escape (start : Mark) : Read Char := do
  let cursor ← get
  let after := cursor.next
  match after.rest with
  | [] => failSince .unknownEscape .escape start
  | 'x' :: _ => set after.next; codePoint start 2
  | 'u' :: _ => set after.next; codePoint start 4
  | 'U' :: _ => set after.next; codePoint start 8
  | c :: _ =>
    match shortEscapes.lookup c with
    | some value => set after.next; return value
    | none => failSince .unknownEscape .escape start

/-- The characters up to white space or to the closing quote, after `front`, and the white space as
far as an escape has it read. -/
def Read.quotedWord (quote : Char) (start : Mark) :
    (fuel : Nat) → (front : List Char) → Read (List Char × Gap)
  | 0, front => return (front, .empty)
  | fuel + 1, front => do
    look 2
    let cursor ← get
    match cursor.rest with
    | [] => return (front, .empty)
    | c :: rest =>
      if atSpace [c] then return (front, .empty)
      else if c == quote then
        if quote == '\'' && rest.head? == some quote then
          set (cursor.skip 2)
          quotedWord quote start fuel (front ++ [quote])
        else return (front, .empty)
      else if quote == '"' && c == '\\' then
        if rest.head?.any isBreak then
          look 3
          set (cursor.skip 2)
          return (front, .escaped)
        else
          let value ← escape start
          quotedWord quote start fuel (front ++ [value])
      else
        skip
        quotedWord quote start fuel (front ++ [c])

/-- The rest of a quoted text that starts at `start`, after `front`, and its closing quote. -/
def Read.quotedRest (quote : Char) (start : Mark) :
    (fuel : Nat) → (front : List Char) → Read (List Char)
  | 0, _ => failSince .unexpectedEnd .quotedText start
  | fuel + 1, front => do
    look 4
    let cursor ← get
    if cursor.atDocumentMark then failSince .unexpectedMark .quotedText start
    if cursor.rest.isEmpty then failSince .unexpectedEnd .quotedText start
    let n := cursor.rest.length + 1
    let (word, gap) ← quotedWord quote start n []
    if (← peek) == some quote then
      skip
      return front ++ word
    let gap ← Read.gap 0 start n gap
    quotedRest quote start fuel (front ++ word ++ gap.folded)

/-- The quoted text that starts here. -/
def Read.quoted (quote : Char) : Read String := do
  let cursor ← get
  skip
  let text ← quotedRest quote cursor.mark (cursor.rest.length + 1) []
  return String.ofList text

/-! ### Blocks of lines -/

/-- What is kept of the line breaks at the end of a block. -/
inductive Chomping where
  | strip
  | clip
  | keep
deriving DecidableEq

/-- The indicators after `|` or `>`: what is kept of the last line breaks, and the indentation; both
may be missing, and they may stand in either order. -/
def Read.blockHeader (start : Mark) : Read (Chomping × Option Nat) := do
  let chomping ← sign?
  let size ← digit?
  let chomping ← match chomping with
    | none => sign?
    | some sign => pure (some sign)
  return (chomping.getD .clip, size)
where
  sign? : Read (Option Chomping) := do
    match ← peek with
    | some '+' => skip; return some .keep
    | some '-' => skip; return some .strip
    | _ => return none
  digit? : Read (Option Nat) := do
    match ← peek with
    | some c =>
      if c == '0' then failSince .zeroIndentation .blockText start
      else if c.isDigit then
        skip
        return some (c.toNat - '0'.toNat)
      else return none
    | none => return none

/-- Reads blank lines and the indentation of the line after them, which ends at the column `indent`
if that is known.  Gives what the breaks stand for, and the greatest column reached. -/
def Read.blockBreaks (indent : Option Nat) (start : Mark) :
    (fuel : Nat) → (breaks : List Char) → (widest : Nat) → Read (List Char × Nat)
  | 0, breaks, widest => return (breaks, widest)
  | fuel + 1, breaks, widest => do
    let line ← get
    let spaces := (line.rest.takeWhile (· == ' ')).length
    let limit := indent.elim spaces (· - line.mark.column)
    let cursor := line.skip (min spaces limit)
    set cursor
    look 1
    let widest := max widest cursor.mark.column
    match cursor.rest with
    | [] => return (breaks, widest)
    | c :: _ =>
      if c == '\t' && indent.all (cursor.mark.column < ·) then
        failSince .tabInBlock .blockText start
      if isBreak c then
        skipBreak
        blockBreaks indent start fuel (breaks ++ [breakChar c]) widest
      else return (breaks, widest)

/-- The rest of the lines of a block, after `front`, the line break `last` and the blank lines
`breaks`.  A folded block joins two lines, unless one of them starts with a blank; `blank` is
whether the last one does. -/
def Read.blockLines (literal : Bool) (chomping : Chomping) (indent : Nat) (start : Mark) :
    (fuel : Nat) → (front last breaks : List Char) → (blank : Bool) → Read (List Char)
  | 0, front, _, _, _ => return front
  | fuel + 1, front, last, breaks, blank => do
    let cursor ← get
    if cursor.mark.column != indent || cursor.rest.isEmpty then
      return front ++ (if chomping = .strip then [] else last) ++
        (if chomping = .keep then breaks else [])
    let blankNow := cursor.rest.head?.any isBlank
    let joint :=
      if !literal && last == ['\n'] && !blank && !blankNow then
        (if breaks.isEmpty then [' '] else [])
      else last
    let line ← takeWhile (!isBreak ·)
    let last := ((← peek).map breakChar).toList
    skipBreak
    let (next, _) ← blockBreaks (some indent) start (cursor.rest.length + 1) [] 0
    let front := front ++ joint ++ breaks ++ line
    blockLines literal chomping indent start fuel front last next blankNow

/-- The block of lines that starts here with its indicator, inside a part that is indented to
`least` less one. -/
def Read.block (literal : Bool) (least : Nat) : Read String := do
  let start := (← get).mark
  skip
  let (chomping, size) ← blockHeader start
  endLine .blockText start
  let fuel := (← get).rest.length + 1
  let given := size.map (least - 1 + ·)
  let (breaks, widest) ← blockBreaks given start fuel [] 0
  let indent := given.getD (max widest (max least 1))
  let text ← blockLines literal chomping indent start fuel [] [] breaks false
  return String.ofList text

end Allowlist.Yaml
