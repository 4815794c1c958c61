import Allowlist.Text.Visible

/-!
# Text.Quoted — texts in double quotes

A quoted text names every character by something visible.  Quotes, backslashes and the usual
controls have short names, visible characters stand for themselves, and all others are written as
their code point in hexadecimal.
-/

namespace Allowlist.Text

/-- One character as it stands between double quotes. -/
def escape (c : Char) : List Char :=
  if c = '"' then ['\\', '"']
  else if c = '\\' then ['\\', '\\']
  else if c = '\n' then ['\\', 'n']
  else if c = '\r' then ['\\', 'r']
  else if c = '\t' then ['\\', 't']
  else if c = '\x00' then ['\\', '0']
  else if isVisible c then [c]
  else ['\\', 'u', '\x7b'] ++ Nat.toDigits 16 c.toNat ++ ['\x7d']

/-- The text in double quotes. -/
def quote (text : String) : String :=
  "\"" ++ String.ofList (text.toList.flatMap escape) ++ "\""

end Allowlist.Text
