import Allowlist.Yaml.Cursor

/-!
# Yaml.Problem — what is wrong with a YAML text

A problem is reported with its place, and often with what was being read there and from which place
on.  `Read` is a reader that moves a cursor and may fail in this way.  A text is taken in pieces; a
control character is a problem as soon as the reader has to look into its piece.
-/

namespace Allowlist.Yaml

inductive Problem where
  /-- A control character, with the number of bytes before it. -/
  | controlCharacter (position : Nat)
  | unexpectedEnd
  | unexpectedMark
  | unknownEscape
  | expectedHexDigit
  | invalidCodePoint
  | cannotStartToken
  | unexpectedColon
  | tabIndentation
  | tabInBlock
  | zeroIndentation
  | keyNotAllowed
  | valueNotAllowed
  | itemNotAllowed
  | expectedColon
  | expectedContent
  | expectedKey
  | expectedItem
  | expectedListEnd
  | expectedMappingEnd
  | expectedLineEnd
  | expectedDocumentStart
  | expectedName
  | expectedDirective
  | invalidDirective
  | unknownDirective
  | expectedVersion
  | longVersion
  | expectedVersionPoint
  | expectedSpace
  | expectedSpaceOrBreak
  | expectedTag
  | expectedTagEnd
  | expectedTagMark
  | expectedOctet
  | invalidFirstOctet
  | invalidLaterOctet
  | undefinedHandle
  | repeatedVersion
  | repeatedHandle
  | incompatibleVersion
  | unknownAnchor
deriving DecidableEq

/-- What was being read when a problem came up. -/
inductive Activity where
  | token
  | plainText
  | quotedText
  | escape
  | blockText
  | key
  | anchor
  | reference
  | tag
  | tagText
  | directive
  | versionDirective
  | tagDirective
  | handleStart
  | handleEnd
  | prefixText
  | part
  | blockPart
  | flowPart
  | flowList
  | flowMapping
  | blockList
  | blockMapping
deriving DecidableEq

namespace Problem

def message : Problem → String
  | controlCharacter position => "control characters are not allowed" ++
      (if position = 0 then "" else " at position " ++ toString position)
  | unexpectedEnd => "found unexpected end of stream"
  | unexpectedMark => "found unexpected document indicator"
  | unknownEscape => "found unknown escape character"
  | expectedHexDigit => "did not find expected hexadecimal number"
  | invalidCodePoint => "found invalid Unicode character escape code"
  | cannotStartToken => "found character that cannot start any token"
  | unexpectedColon => "found unexpected ':'"
  | tabIndentation => "found a tab character that violates indentation"
  | tabInBlock => "found a tab character where an indentation space is expected"
  | zeroIndentation => "found an indentation indicator equal to 0"
  | keyNotAllowed => "mapping keys are not allowed in this context"
  | valueNotAllowed => "mapping values are not allowed in this context"
  | itemNotAllowed => "block sequence entries are not allowed in this context"
  | expectedColon => "could not find expected ':'"
  | expectedContent => "did not find expected node content"
  | expectedKey => "did not find expected key"
  | expectedItem => "did not find expected '-' indicator"
  | expectedListEnd => "did not find expected ',' or ']'"
  | expectedMappingEnd => "did not find expected ',' or '\x7d'"
  | expectedLineEnd => "did not find expected comment or line break"
  | expectedDocumentStart => "did not find expected <document start>"
  | expectedName => "did not find expected alphabetic or numeric character"
  | expectedDirective => "could not find expected directive name"
  | invalidDirective => "found unexpected non-alphabetical character"
  | unknownDirective => "found unknown directive name"
  | expectedVersion => "did not find expected version number"
  | longVersion => "found extremely long version number"
  | expectedVersionPoint => "did not find expected digit or '.' character"
  | expectedSpace => "did not find expected whitespace"
  | expectedSpaceOrBreak => "did not find expected whitespace or line break"
  | expectedTag => "did not find expected tag URI"
  | expectedTagEnd => "did not find the expected '>'"
  | expectedTagMark => "did not find expected '!'"
  | expectedOctet => "did not find URI escaped octet"
  | invalidFirstOctet => "found an incorrect leading UTF-8 octet"
  | invalidLaterOctet => "found an incorrect trailing UTF-8 octet"
  | undefinedHandle => "found undefined tag handle"
  | repeatedVersion => "found duplicate %YAML directive"
  | repeatedHandle => "found duplicate %TAG directive"
  | incompatibleVersion => "found incompatible YAML document"
  | unknownAnchor => "unknown anchor"

end Problem

namespace Activity

def message : Activity → String
  | token => "while scanning for the next token"
  | plainText => "while scanning a plain scalar"
  | quotedText => "while scanning a quoted scalar"
  | escape => "while parsing a quoted scalar"
  | blockText => "while scanning a block scalar"
  | key => "while scanning a simple key"
  | anchor => "while scanning an anchor"
  | reference => "while scanning an alias"
  | tag => "while scanning a tag"
  | tagText => "while parsing a tag"
  | directive => "while scanning a directive"
  | versionDirective => "while scanning a %YAML directive"
  | tagDirective => "while scanning a %TAG directive"
  | handleStart => "while scanning a tag directive"
  | handleEnd => "while parsing a tag directive"
  | prefixText => "while parsing a %TAG directive"
  | part => "while parsing a node"
  | blockPart => "while parsing a block node"
  | flowPart => "while parsing a flow node"
  | flowList => "while parsing a flow sequence"
  | flowMapping => "while parsing a flow mapping"
  | blockList => "while parsing a block collection"
  | blockMapping => "while parsing a block mapping"

end Activity

/-- A problem, where it was noticed, and what was being read there and from which place on. -/
structure SyntaxError where
  problem : Problem
  mark : Mark
  during : Option (Activity × Mark)
deriving DecidableEq

namespace SyntaxError

/-- The problem and its place, then the activity, with its place if that is another. -/
def message (e : SyntaxError) : String :=
  e.problem.message ++ e.mark.note ++
    match e.during with
    | none => ""
    | some (activity, start) =>
      ", " ++ activity.message ++ (if start.samePlace e.mark then "" else start.note)

/-- A text is taken in pieces of so many bytes, less those of a character that does not fit. -/
def pieceSize : Nat := 16384

/-- The complaint about the first control character of a text, and the number of characters in the
pieces before it.  `position` bytes and `count` characters have been taken; the last piece starts
after `start` bytes and `whole` characters. -/
def ofControl? (start whole position count : Nat) : List Char → Option (Nat × SyntaxError)
  | [] => none
  | c :: cs =>
    let stop := position + c.utf8Size
    let (start, whole) := if stop ≤ start + pieceSize then (start, whole) else (position, count)
    if isPrintable c then ofControl? start whole stop (count + 1) cs
    else some (whole, ⟨.controlCharacter position, .start, none⟩)

end SyntaxError

/-! ### Readers -/

/-- A reader that moves a cursor and may fail.  It is given the reason why nothing can be read after
what the cursor has left, if the text goes on there. -/
abbrev Read := ReaderT (Option SyntaxError) (StateT Cursor (Except SyntaxError))

namespace Read

/-- Fails if so many characters cannot be looked at although the text goes on. -/
def look (count : Nat) : Read Unit := do
  if let some cause := ← read then
    if ((← get).rest.take count).length < count then throw cause

/-- Fails at the place that has been reached. -/
def fail {α : Type} (problem : Problem) : Read α := do
  throw ⟨problem, (← get).mark, none⟩

/-- Fails at the place that has been reached, while something is read that starts at `start`. -/
def failSince {α : Type} (problem : Problem) (activity : Activity) (start : Mark) : Read α := do
  throw ⟨problem, (← get).mark, some (activity, start)⟩

/-- The next character, not read yet. -/
def peek : Read (Option Char) := do
  look 1
  return (← get).rest.head?

/-- Reads one character. -/
def skip : Read Unit :=
  modify Cursor.next

/-- Reads as many characters of a class, none of them a break, as there are. -/
def takeWhile (p : Char → Bool) : Read (List Char) := do
  let cursor ← get
  set (cursor.skipWhile p)
  look 1
  return cursor.rest.takeWhile p

/-- Reads a line break, if there is one. -/
def skipBreak : Read Unit := do
  look 2
  skip

/-- Reads the rest of a line, which may hold blanks and a comment, and its break. -/
def endLine (activity : Activity) (start : Mark) : Read Unit := do
  modify fun cursor => (cursor.skipWhile isBlank).skipComment
  look 1
  if !atBreak (← get).rest then failSince .expectedLineEnd activity start
  skipBreak

end Read

end Allowlist.Yaml
