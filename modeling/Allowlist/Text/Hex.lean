/-!
# Text.Hex — hexadecimal digits

The sixteen digits, letters in either case.
-/

namespace Allowlist.Text

/-- The value of a hexadecimal digit. -/
def hexValue? (c : Char) : Option Nat :=
  if c.isDigit then some (c.toNat - '0'.toNat)
  else if 'a' ≤ c && c ≤ 'f' then some (c.toNat - 'a'.toNat + 10)
  else if 'A' ≤ c && c ≤ 'F' then some (c.toNat - 'A'.toNat + 10)
  else none

/-- The number that digits of the given base, at most sixteen, write after `start`. -/
def digitsValue? (base start : Nat) (digits : List Char) : Option Nat :=
  digits.foldlM (fun n c => (hexValue? c).bind fun d =>
    if d < base then some (base * n + d) else none) start

end Allowlist.Text
