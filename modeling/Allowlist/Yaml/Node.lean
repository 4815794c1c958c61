import Allowlist.Yaml.Token

/-!
# Yaml.Node — the parts of a YAML document

A document is a tree of texts, lists and mappings, each with the place where it starts.  A part may
have a label, by which aliases further on stand for it.  Where a text stops to make sense, its tree
has a broken part: all that is written before that place can still be read, and what stands after a
broken part in a tree means nothing.
-/

namespace Allowlist.Yaml

/-- The place where a part starts, and its label if aliases can stand for it. -/
structure Start where
  mark : Mark
  label : Option Nat

inductive Node where
  | scalar (start : Start) (tag : Option String) (style : Style) (text : String)
  | list (start : Start) (items : List Node)
  | mapping (start : Start) (entries : List (Node × Node))
  /-- A part that stands for the one with the label. -/
  | reference (mark : Mark) (label : Nat)
  /-- A part at which the text stops to make sense. -/
  | broken (cause : SyntaxError)

namespace Node

def mark : Node → Mark
  | scalar start _ _ _ => start.mark
  | list start _ => start.mark
  | mapping start _ => start.mark
  | reference mark _ => mark
  | broken cause => cause.mark

/-- The part that stands where nothing is written. -/
def empty (mark : Mark) : Node := scalar ⟨mark, none⟩ none .plain ""

/-! ### Broken parts -/

mutual
/-- The first place in reading order at which the text stops to make sense. -/
def fault? : Node → Option SyntaxError
  | scalar _ _ _ _ => none
  | list _ items => itemsFault? items
  | mapping _ entries => entriesFault? entries
  | reference _ _ => none
  | broken cause => some cause

def itemsFault? : List Node → Option SyntaxError
  | [] => none
  | node :: nodes => fault? node <|> itemsFault? nodes

def entriesFault? : List (Node × Node) → Option SyntaxError
  | [] => none
  | (key, node) :: entries => fault? key <|> fault? node <|> entriesFault? entries
end

/-! ### Size -/

mutual
/-- The number of parts, and of ends of lists and mappings. -/
def size : Node → Nat
  | scalar _ _ _ _ => 1
  | list _ items => itemsSize items + 2
  | mapping _ entries => entriesSize entries + 2
  | reference _ _ => 1
  | broken _ => 0

def itemsSize : List Node → Nat
  | [] => 0
  | node :: nodes => size node + itemsSize nodes

def entriesSize : List (Node × Node) → Nat
  | [] => 0
  | (key, node) :: entries => size key + size node + entriesSize entries
end

/-! ### Aliases -/

/-- The part itself, if it has the label. -/
def ifLabelled (label : Nat) (start : Start) (node : Node) : Option Node :=
  if start.label = some label then some node else none

mutual
/-- The last part in reading order that has the label. -/
def labelled? (label : Nat) : Node → Option Node
  | scalar start tag style text => ifLabelled label start (scalar start tag style text)
  | list start items => itemsLabelled? label items <|> ifLabelled label start (list start items)
  | mapping start entries =>
    entriesLabelled? label entries <|> ifLabelled label start (mapping start entries)
  | reference _ _ => none
  | broken _ => none

def itemsLabelled? (label : Nat) : List Node → Option Node
  | [] => none
  | node :: nodes => itemsLabelled? label nodes <|> labelled? label node

def entriesLabelled? (label : Nat) : List (Node × Node) → Option Node
  | [] => none
  | (key, node) :: entries =>
    entriesLabelled? label entries <|> labelled? label node <|> labelled? label key
end

/-- The part that a part of the document `root` stands for. -/
def follow (root : Node) : Node → Node
  | reference mark label => (root.labelled? label).getD (reference mark label)
  | node => node

end Node

end Allowlist.Yaml
