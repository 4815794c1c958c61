import Allowlist.Yaml.Property
import Allowlist.Yaml.Scalar

/-!
# Yaml.Lexer — tokens from text

Blocks are told apart by indentation: a block of entries starts where one stands further right than
the block around it, and ends where something stands further left.  That a part is the key of a
mapping shows only at the colon after it; so the place of each part that may be a key is kept until
its line ends, and the tokens before the colon are held back until then.
-/

namespace Allowlist.Yaml

/-- A part that will be a key if a colon follows it. -/
structure KeyCandidate where
  /-- The number of the token with which the part starts. -/
  number : Nat
  mark : Mark
  /-- The part stands where only a key can. -/
  required : Bool

/-- The cursor, the tokens read but not handed out, and what tells how the next ones are read. -/
structure Lexer where
  cursor : Cursor
  /-- Why nothing can be read after what the cursor has left, if the text goes on there. -/
  barrier : Option SyntaxError
  queue : List Token
  /-- The number of tokens handed out. -/
  taken : Nat
  ended : Bool
  /-- The least column further right than the entries of the innermost block, and so for each block
  around it. -/
  least : Nat
  outer : List Nat
  /-- The candidate inside the innermost brackets or outside all, and those around it. -/
  candidate : Option KeyCandidate
  outerCandidates : List (Option KeyCandidate)
  keyAllowed : Bool

namespace Lexer

/-- The lexer at the start of a text, which may go on after what can be read of it. -/
def ofChars (text : List Char) (barrier : Option SyntaxError) : Lexer where
  cursor := ⟨text, .start⟩
  barrier := barrier
  queue := []
  taken := 0
  ended := false
  least := 0
  outer := []
  candidate := none
  outerCandidates := []
  keyAllowed := true

/-- The cursor stands inside brackets or braces. -/
def inFlow (lexer : Lexer) : Bool := !lexer.outerCandidates.isEmpty

/-- The lexer with a token added to those that are not handed out. -/
def push (lexer : Lexer) (mark : Mark) (kind : Token.Kind) : Lexer :=
  { lexer with queue := lexer.queue ++ [⟨mark, kind⟩] }

/-- The lexer with a token added in front of that with the given number. -/
def insert (lexer : Lexer) (number : Nat) (mark : Mark) (kind : Token.Kind) : Lexer :=
  let n := number - lexer.taken
  { lexer with queue := lexer.queue.take n ++ ⟨mark, kind⟩ :: lexer.queue.drop n }

/-! ### Candidates for keys -/

/-- The greatest number of bytes between the start of a key and its colon. -/
def keyLength : Nat := 1024

/-- The candidate cannot be a key any more: its line has ended, or it has become too long. -/
def isStale (mark : Mark) (candidate : KeyCandidate) : Bool :=
  candidate.mark.line < mark.line || candidate.mark.index + keyLength < mark.index

/-- The complaint that the candidate has no colon, if it needs one. -/
def missingColon? (mark : Mark) (candidate : KeyCandidate) : Option SyntaxError :=
  if candidate.required then some ⟨.expectedColon, mark, some (.key, candidate.mark)⟩ else none

/-- The lexer without the candidates that cannot be keys any more. -/
def dropStale (lexer : Lexer) : Except SyntaxError Lexer :=
  let mark := lexer.cursor.mark
  let all := lexer.candidate :: lexer.outerCandidates
  match (all.filterMap id).findSome? fun candidate =>
      if isStale mark candidate then missingColon? mark candidate else none with
  | some cause => .error cause
  | none =>
    let keep (candidate : Option KeyCandidate) := candidate.filter (!isStale mark ·)
    .ok { lexer with
      candidate := keep lexer.candidate
      outerCandidates := lexer.outerCandidates.map keep }

/-- The lexer without its innermost candidate. -/
def dropCandidate (lexer : Lexer) : Except SyntaxError Lexer :=
  match lexer.candidate.bind (missingColon? lexer.cursor.mark) with
  | some cause => .error cause
  | none => .ok { lexer with candidate := none }

/-- The lexer with the part that starts here as a candidate, if a key may stand here. -/
def addCandidate (lexer : Lexer) : Except SyntaxError Lexer := do
  if !lexer.keyAllowed then return lexer
  let lexer ← lexer.dropCandidate
  let mark := lexer.cursor.mark
  let required := !lexer.inFlow && lexer.least == mark.column + 1
  return { lexer with candidate := some ⟨lexer.taken + lexer.queue.length, mark, required⟩ }

/-! ### Blocks -/

/-- The lexer inside a block whose entries stand in the column of `mark`, which starts there unless
it has started already; `number` is that of its first token if that has been read. -/
def enterBlock (lexer : Lexer) (mark : Mark) (kind : Token.Kind) (number : Option Nat) : Lexer :=
  if lexer.inFlow || mark.column < lexer.least then lexer
  else
    let lexer := { lexer with least := mark.column + 1, outer := lexer.least :: lexer.outer }
    match number with
    | none => lexer.push mark kind
    | some n => lexer.insert n mark kind

/-- The lexer outside all blocks whose least column is greater than `limit`; `outer` are the least
columns of the blocks around the innermost one. -/
def leaveBlocks (limit : Nat) : (outer : List Nat) → Lexer → Lexer
  | [], lexer => lexer
  | least :: outer, lexer =>
    if lexer.inFlow || lexer.least ≤ limit then lexer
    else
      leaveBlocks limit outer
        ({ lexer with least := least, outer := outer }.push lexer.cursor.mark .blockEnd)

/-- The lexer outside all blocks. -/
def leaveAll (lexer : Lexer) : Lexer := lexer.leaveBlocks 0 lexer.outer

/-! ### Reading one token -/

/-- The lexer after part of the text has been read, and what was read. -/
def read {α : Type} (lexer : Lexer) (part : Read α) : Except SyntaxError (α × Lexer) := do
  let (a, cursor) ← (part.run lexer.barrier).run lexer.cursor
  return (a, { lexer with cursor := cursor })

/-- Fails if so many characters cannot be looked at although the text goes on. -/
def look (lexer : Lexer) (count : Nat) : Except SyntaxError Unit :=
  discard (lexer.read (Read.look count))

/-- Passes over white space and comments, up to the next token.  Tabs are passed over only where no
key may stand, and a byte order mark at the start of a line. -/
def skipSpace : (fuel : Nat) → Lexer → Lexer
  | 0, lexer => lexer
  | fuel + 1, lexer =>
    let isSpace (c : Char) := c == ' ' || c == '\t' && (lexer.inFlow || !lexer.keyAllowed)
    let cursor := (lexer.cursor.skipOrderMark.skipWhile isSpace).skipComment
    if cursor.rest.head?.any isBreak then
      skipSpace fuel { lexer with
        cursor := cursor.next
        keyAllowed := !lexer.inFlow || lexer.keyAllowed }
    else { lexer with cursor := cursor }

/-- Reads an indicator of so many characters. -/
def indicator (lexer : Lexer) (size : Nat) (kind : Token.Kind) : Lexer :=
  { lexer.push lexer.cursor.mark kind with cursor := lexer.cursor.skip size }

/-- The end of the text, which is a line of its own. -/
def atEnd (lexer : Lexer) : Except SyntaxError Lexer := do
  let mark := lexer.cursor.mark
  let mark := if mark.column = 0 then mark else ⟨mark.index, mark.line + 1, 0⟩
  let lexer := { lexer with cursor := ⟨[], mark⟩ }.leaveAll
  let lexer ← lexer.dropCandidate
  return { lexer.push mark .textEnd with keyAllowed := false, ended := true }

/-- A directive, or the mark that starts or ends a document. -/
def atLineStart (lexer : Lexer) (part : Read Token.Kind) : Except SyntaxError Lexer := do
  let mark := lexer.cursor.mark
  let lexer ← lexer.leaveAll.dropCandidate
  let (kind, lexer) ← { lexer with keyAllowed := false }.read part
  return lexer.push mark kind

/-- An opening bracket. -/
def opening (lexer : Lexer) (kind : Token.Kind) : Except SyntaxError Lexer := do
  let lexer ← lexer.addCandidate
  return { lexer with
    candidate := none
    outerCandidates := lexer.candidate :: lexer.outerCandidates
    keyAllowed := true }.indicator 1 kind

/-- A closing bracket. -/
def closing (lexer : Lexer) (kind : Token.Kind) : Except SyntaxError Lexer := do
  let lexer ← lexer.dropCandidate
  let lexer := match lexer.outerCandidates with
    | [] => lexer
    | candidate :: others => { lexer with candidate := candidate, outerCandidates := others }
  return { lexer with keyAllowed := false }.indicator 1 kind

def comma (lexer : Lexer) : Except SyntaxError Lexer := do
  let lexer ← lexer.dropCandidate
  return { lexer with keyAllowed := true }.indicator 1 .comma

/-- Starts a block at an indicator of its entries, where that may stand. -/
def entry (lexer : Lexer) (kind : Token.Kind) (problem : Problem) : Except SyntaxError Lexer :=
  let mark := lexer.cursor.mark
  if lexer.inFlow then .ok lexer
  else if lexer.keyAllowed then .ok (lexer.enterBlock mark kind none)
  else .error ⟨problem, mark, none⟩

/-- The dash before an item of a list. -/
def item (lexer : Lexer) : Except SyntaxError Lexer := do
  let lexer ← lexer.entry .blockListStart .itemNotAllowed
  let lexer ← lexer.dropCandidate
  return { lexer with keyAllowed := true }.indicator 1 .item

/-- The question mark before a key. -/
def key (lexer : Lexer) : Except SyntaxError Lexer := do
  let lexer ← lexer.entry .blockMappingStart .keyNotAllowed
  let lexer ← lexer.dropCandidate
  return { lexer with keyAllowed := !lexer.inFlow }.indicator 1 .key

/-- The colon before a value; if there is a candidate it is the key. -/
def value (lexer : Lexer) : Except SyntaxError Lexer := do
  match lexer.candidate with
  | some ⟨number, mark, _⟩ =>
    let lexer := (lexer.insert number mark .key).enterBlock mark .blockMappingStart (some number)
    return { lexer with candidate := none, keyAllowed := false }.indicator 1 .value
  | none =>
    let lexer ← lexer.entry .blockMappingStart .valueNotAllowed
    return { lexer with keyAllowed := !lexer.inFlow }.indicator 1 .value

/-- A part that may be a key or stand in front of one; no other key may start right after it. -/
def keyPart (lexer : Lexer) (part : Read Token.Kind) : Except SyntaxError Lexer := do
  let mark := lexer.cursor.mark
  let lexer ← lexer.addCandidate
  let (kind, lexer) ← { lexer with keyAllowed := false }.read part
  return lexer.push mark kind

/-- A plain text; a key may start on the line after it. -/
def plain (lexer : Lexer) : Except SyntaxError Lexer := do
  let mark := lexer.cursor.mark
  let lexer ← lexer.addCandidate
  let ((text, broken), lexer) ← lexer.read (Read.plain lexer.inFlow lexer.least)
  return { lexer with keyAllowed := broken }.push mark (.scalar .plain text)

/-- A block of lines. -/
def block (lexer : Lexer) (style : Style) : Except SyntaxError Lexer := do
  let mark := lexer.cursor.mark
  let lexer ← lexer.dropCandidate
  let (text, lexer) ← lexer.read (Read.block (style = .literal) lexer.least)
  return { lexer with keyAllowed := true }.push mark (.scalar style text)

/-- Reads the next token, with the starts and ends of blocks that its place implies. -/
def next (lexer : Lexer) : Except SyntaxError Lexer := do
  let lexer := lexer.skipSpace (lexer.cursor.rest.length + 1)
  lexer.look 1
  let lexer ← lexer.dropStale
  lexer.look 4
  let cursor := lexer.cursor
  let lexer := lexer.leaveBlocks (cursor.mark.column + 1) lexer.outer
  let flow := lexer.inFlow
  match cursor.rest with
  | [] => lexer.atEnd
  | c :: rest =>
    if cursor.mark.column == 0 && c == '%' then lexer.atLineStart Read.directive
    else if cursor.atDocumentMark then
      lexer.atLineStart do
        modify (Cursor.skip 3)
        return if c == '-' then .documentStart else .documentEnd
    else if c == '[' then lexer.opening .flowListStart
    else if c == '\x7b' then lexer.opening .flowMappingStart
    else if c == ']' then lexer.closing .flowListEnd
    else if c == '\x7d' then lexer.closing .flowMappingEnd
    else if c == ',' then lexer.comma
    else if c == '-' && atSpace rest then lexer.item
    else if c == '?' && (flow || atSpace rest) then lexer.key
    else if c == ':' && (flow || atSpace rest) then lexer.value
    else if c == '*' then lexer.keyPart Read.reference
    else if c == '&' then lexer.keyPart Read.anchor
    else if c == '!' then lexer.keyPart (Read.tag flow)
    else if c == '|' && !flow then lexer.block .literal
    else if c == '>' && !flow then lexer.block .folded
    else if c == '\'' || c == '"' then lexer.keyPart (.scalar .quoted <$> Read.quoted c)
    else if startsPlain flow cursor.rest then lexer.plain
    else .error ⟨.cannotStartToken, cursor.mark, some (.token, cursor.mark)⟩

/-! ### All tokens -/

/-- The next token to hand out may turn out to be the start of a key. -/
def holdsBack (lexer : Lexer) : Bool :=
  (lexer.candidate :: lexer.outerCandidates).any fun candidate =>
    candidate.any (·.number == lexer.taken)

/-- The tokens that are left to hand out; `fuel` bounds their number and that of the readings. -/
def tokens : (fuel : Nat) → Lexer → List Token
  | 0, _ => []
  | fuel + 1, lexer =>
    let more (lexer : Lexer) : List Token :=
      match lexer.next with
      | .ok lexer => tokens fuel lexer
      | .error cause => [⟨cause.mark, .fault cause⟩]
    match lexer.queue with
    | [] => if lexer.ended then [] else more lexer
    | token :: queue =>
      match lexer.dropStale with
      | .error cause => [⟨cause.mark, .fault cause⟩]
      | .ok lexer =>
        if lexer.holdsBack then more lexer
        else token :: tokens fuel { lexer with queue := queue, taken := lexer.taken + 1 }

end Lexer

/-- The tokens of a text.  A control character is a fault before all others in its piece. -/
def Token.ofText (text : String) : List Token :=
  let fuel := 8 * (text.length + 4)
  match SyntaxError.ofControl? 0 0 0 0 text.toList with
  | some (count, cause) => (Lexer.ofChars (text.toList.take count) (some cause)).tokens fuel
  | none => (Lexer.ofChars text.toList none).tokens fuel

end Allowlist.Yaml
