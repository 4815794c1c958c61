/-!
# Path — bracketed keys and the hops they spell

A flattened key such as `root[items][0][]` spells a walk from the top of a nested document.  Each
segment is one `Hop`.  A path is an optional non-empty head without brackets, then groups `[text]`
with non-empty bracket-free text, then at most one final `[]`; nothing else is a path, and
`Path.tokenize?` answers `none` for it.  `Path.render` writes hops back.
-/

namespace Allowlist

/-- One segment of a path: a bare head, a bracketed text, or the element marker `[]`. -/
inductive Hop where
  | name (text : String)
  | bracket (text : String)
  | anonymous
deriving DecidableEq

/-- A text of one or more decimal digits. -/
def isDecimal (text : String) : Bool :=
  text.toList != [] && text.toList.all Char.isDigit

namespace Hop

/-- The text of the segment; only `[]` has none. -/
def text? : Hop → Option String
  | name text => some text
  | bracket text => some text
  | anonymous => none

/-- The segment is written with digits alone, so it counts elements. -/
def isNumeric (hop : Hop) : Bool :=
  hop.text?.any isDecimal

def isAnonymous (hop : Hop) : Bool :=
  hop == anonymous

/-- The member name that an object may read from this hop: any text that is not a number. -/
def member? (hop : Hop) : Option String :=
  hop.text?.filter fun text => !isDecimal text

/-- An array may read this hop: it is a number or `[]`. -/
def isElement (hop : Hop) : Bool :=
  hop.isAnonymous || hop.isNumeric

/-- The segment as it stands in a path. -/
def render : Hop → String
  | name text => text
  | bracket text => "[" ++ text ++ "]"
  | anonymous => "[]"

end Hop

namespace Path

/-- Every character but the two brackets. -/
def isPlain (c : Char) : Bool :=
  c != '[' && c != ']'

/-- The bracket groups that `cs` spells to its end. -/
def groups? : List Char → Option (List Hop)
  | [] => some []
  | '[' :: cs =>
    match _h : cs.dropWhile isPlain with
    | ']' :: rest =>
      match cs.takeWhile isPlain with
      | [] => if rest = [] then some [.anonymous] else none
      | text => (groups? rest).map (.bracket (String.ofList text) :: ·)
    | _ => none
  | _ => none
termination_by cs => cs.length
decreasing_by
  have := (List.dropWhile_suffix isPlain (l := cs)).length_le
  simp only [_h, List.length_cons] at this ⊢
  omega

/-- The hops of a path, or `none` for a text that is not a path. -/
def tokenize? (path : String) : Option (List Hop) :=
  match path.toList.takeWhile isPlain with
  | [] => if path.toList = [] then none else groups? path.toList
  | head => (groups? (path.toList.dropWhile isPlain)).map (.name (String.ofList head) :: ·)

/-- The text that the hops spell. -/
def render (hops : List Hop) : String :=
  String.join (hops.map Hop.render)

end Path

end Allowlist
