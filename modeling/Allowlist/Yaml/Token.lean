import Allowlist.Yaml.Cursor
import Allowlist.Yaml.Problem

/-!
# Yaml.Token — the smallest parts of a YAML text

Tokens are texts and their properties, indicators, and the starts and ends of blocks, which are
written by indentation alone.  The last token is the end of the text, or the fault that keeps it
from being read any further.
-/

namespace Allowlist.Yaml

/-- How a text is written. -/
inductive Style where
  | plain
  | quoted
  | literal
  | folded
deriving DecidableEq

namespace Token

inductive Kind where
  | version (major minor : Nat)
  | handle (name start : String)
  | documentStart
  | documentEnd
  | blockListStart
  | blockMappingStart
  | blockEnd
  | flowListStart
  | flowListEnd
  | flowMappingStart
  | flowMappingEnd
  | item
  | comma
  | key
  | value
  | reference (name : String)
  | anchor (name : String)
  | tag (handle suffix : String)
  | scalar (style : Style) (text : String)
  | textEnd
  | fault (cause : SyntaxError)
deriving DecidableEq

end Token

/-- A token and the place where it starts. -/
structure Token where
  mark : Mark
  kind : Token.Kind
deriving DecidableEq

end Allowlist.Yaml
