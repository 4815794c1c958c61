import Allowlist.Text.Quoted

/-!
# Outline — records printed for reading

An outline is the structure of a value as a person reads it: words, lists, maps, records with named
fields, and values wrapped in a named tag.  It prints on one line, or indented with one field or
element on each line.
-/

namespace Allowlist

inductive Outline where
  | word (text : String)
  | list (items : List Outline)
  | map (entries : List (Outline × Outline))
  | record (name : String) (fields : List (String × Outline))
  | tagged (name : String) (value : Outline)

namespace Outline

def bool (b : Bool) : Outline := word (if b then "true" else "false")

def nat (n : Nat) : Outline := word (toString n)

/-- A text, in quotes. -/
def text (s : String) : Outline := word (Text.quote s)

def texts (items : List String) : Outline := list (items.map text)

/-- A value that may be absent. -/
def option : Option Outline → Outline
  | none => word "None"
  | some value => tagged "Some" value

/-! ### On one line -/

mutual
/-- The outline on one line. -/
def compact : Outline → String
  | word text => text
  | list items => "[" ++ ", ".intercalate (compactItems items) ++ "]"
  | map entries => "\x7b" ++ ", ".intercalate (compactEntries entries) ++ "\x7d"
  | record name fields => name ++ " \x7b " ++ ", ".intercalate (compactFields fields) ++ " \x7d"
  | tagged name value => name ++ "(" ++ compact value ++ ")"

def compactItems : List Outline → List String
  | [] => []
  | item :: items => compact item :: compactItems items

def compactEntries : List (Outline × Outline) → List String
  | [] => []
  | (key, value) :: entries => (compact key ++ ": " ++ compact value) :: compactEntries entries

def compactFields : List (String × Outline) → List String
  | [] => []
  | (name, value) :: fields => (name ++ ": " ++ compact value) :: compactFields fields
end

/-! ### One part on each line -/

/-- A new line, indented by four blanks for each level. -/
def newline (level : Nat) : String :=
  "\n" ++ String.ofList (List.replicate (4 * level) ' ')

/-- The parts between an opening and a closing text, each on its own line with a comma after it. -/
def block (level : Nat) (opening closing : String) : List String → String
  | [] => opening ++ closing
  | parts =>
    opening ++ String.join (parts.map fun part => newline (level + 1) ++ part ++ ",") ++
      newline level ++ closing

mutual
/-- The outline with one part on each line, where it starts at the given level. -/
def prettyAt : Nat → Outline → String
  | _, word text => text
  | level, list items => block level "[" "]" (prettyItems (level + 1) items)
  | level, map entries => block level "\x7b" "\x7d" (prettyEntries (level + 1) entries)
  | level, record name fields =>
    block level (name ++ " \x7b") "\x7d" (prettyFields (level + 1) fields)
  | level, tagged name value => block level (name ++ "(") ")" [prettyAt (level + 1) value]

def prettyItems : Nat → List Outline → List String
  | _, [] => []
  | level, item :: items => prettyAt level item :: prettyItems level items

def prettyEntries : Nat → List (Outline × Outline) → List String
  | _, [] => []
  | level, (key, value) :: entries =>
    (prettyAt level key ++ ": " ++ prettyAt level value) :: prettyEntries level entries

def prettyFields : Nat → List (String × Outline) → List String
  | _, [] => []
  | level, (name, value) :: fields =>
    (name ++ ": " ++ prettyAt level value) :: prettyFields level fields
end

/-- The outline with one part on each line. -/
def pretty (outline : Outline) : String :=
  prettyAt 0 outline

end Outline

end Allowlist
