import Allowlist.Decimal
import Allowlist.Keyed
import Allowlist.Text.Quoted

/-!
# Data — nested documents

The values that a document is made of.  The members of an object are a sorted keyed list, so equal
objects are equal lists.  Request data only ever holds texts, lists and objects; the other kinds
come from configuration files.
-/

namespace Allowlist

inductive Data where
  | null
  | bool (value : Bool)
  | int (value : Int)
  /-- A number that is not written as an integer of 64 bits. -/
  | real (value : Decimal)
  | text (value : String)
  | list (items : List Data)
  | object (members : List (String × Data))

namespace Data

/-- What an error calls the value. -/
def describe : Data → String
  | null => "null"
  | bool value => "boolean `" ++ (if value then "true" else "false") ++ "`"
  | int value => "integer `" ++ toString value ++ "`"
  | real value => "floating point `" ++ value.render ++ "`"
  | text value => "string " ++ Text.quote value
  | list _ => "sequence"
  | object _ => "map"

/-- A list of texts. -/
def texts (items : List String) : Data :=
  list (items.map text)

/-- The value of the member `name`, if this is an object that has it. -/
def member? : Data → String → Option Data
  | object members, name => members.lookup name
  | _, _ => none

/-- The text, if this is one. -/
def text? : Data → Option String
  | text value => some value
  | _ => none

/-- The truth value, if this is one. -/
def bool? : Data → Option Bool
  | bool value => some value
  | _ => none

/-- The items, if this is a list. -/
def items : Data → List Data
  | list items => items
  | _ => []

/-- The texts among the items. -/
def textItems (data : Data) : List String :=
  data.items.filterMap text?

end Data

end Allowlist
