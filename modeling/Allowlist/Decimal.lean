/-!
# Decimal — decimal numbers and binary floating point

A decimal is a sign, digits and a power of ten.  Numbers in documents are kept to the precision of
64-bit binary floating point: `Binary.ofRatio?` rounds a quotient to the nearest such number, a tie
to the even one, and `Binary.shortest` finds the fewest digits that round back to it.  All
arithmetic is exact.
-/

namespace Allowlist

/-- The number `digits · 10 ^ exponent`, or its negative. -/
structure Decimal where
  negative : Bool
  digits : Nat
  exponent : Int
deriving DecidableEq

/-- A binary number `mantissa · 2 ^ power`. -/
structure Binary where
  mantissa : Nat
  power : Int
deriving DecidableEq

/-- Where a number goes that lies in the middle between two others. -/
inductive Tie where
  | toEven
  | away
deriving DecidableEq

namespace Binary

/-- The power of the smallest positive number. -/
def leastPower : Int := -1074

/-- The greatest power that a number can have. -/
def greatestPower : Int := 971

/-- The power of two, one for a negative exponent. -/
def twos (exponent : Int) : Nat := Nat.pow 2 exponent.toNat

/-- The power of ten, one for a negative exponent. -/
def tens (exponent : Int) : Nat := Nat.pow 10 exponent.toNat

/-! ### Rounding -/

/-- Rounded quotient, a tie to the even one. -/
def divRound (num den : Nat) : Nat :=
  let q := num / den
  let r := num % den
  if 2 * r > den || (2 * r == den && q % 2 == 1) then q + 1 else q

/-- The binary number with 53 bits that is nearest to a quotient, or `none` beyond the greatest. -/
def ofRatio? (num den : Nat) : Option Binary :=
  if num = 0 then some ⟨0, 0⟩
  else
    let guess := (num.log2 : Int) - den.log2 - 53
    let below := num * twos (-(53 + guess)) < den * twos (53 + guess)
    let power := max leastPower (if below then guess else guess + 1)
    let mantissa := divRound (num * twos (-power)) (den * twos power)
    let rounded : Binary :=
      if mantissa = twos 53 then ⟨twos 52, power + 1⟩ else ⟨mantissa, power⟩
    if rounded.power > greatestPower then none else some rounded

/-- The binary number nearest to `digits · 10 ^ exponent`, or `none` beyond the greatest one. -/
def nearest? (digits : Nat) (exponent : Int) : Option Binary :=
  let magnitude := (Nat.toDigits 10 digits).length + exponent
  if digits = 0 || magnitude < -330 then some ⟨0, 0⟩
  else if magnitude > 310 then none
  else ofRatio? (digits * tens exponent) (tens (-exponent))

/-- The rounded product. -/
def mul? (a b : Binary) : Option Binary :=
  let power := a.power + b.power
  ofRatio? (a.mantissa * b.mantissa * twos power) (twos (-power))

/-- The rounded quotient. -/
def div? (a b : Binary) : Option Binary :=
  let power := a.power - b.power
  ofRatio? (a.mantissa * twos power) (b.mantissa * twos (-power))

/-! ### Scaling -/

/-- The greatest power of ten that is a binary number when rounded. -/
def greatestTen : Nat := 308

/-- The number divided by a power of ten, in steps of the greatest one, each rounded. -/
def scaleDown? (b : Binary) (n : Nat) : Option Binary :=
  if n ≤ greatestTen then (nearest? 1 n).bind b.div?
  else if b.mantissa = 0 then some b
  else do
    let ten ← nearest? 1 greatestTen
    let quotient ← b.div? ten
    scaleDown? quotient (n - greatestTen)
termination_by n
decreasing_by simp only [greatestTen] at *; omega

/-- The significand, rounded, times a power of ten, with a rounding of its own for each step; so
this is not always the number nearest to the exact value.  `none` beyond the greatest number. -/
def scale? (significand : Nat) (exponent : Int) : Option Binary := do
  let b ← nearest? significand 0
  if exponent < 0 then b.scaleDown? (-exponent).toNat
  else if exponent ≤ greatestTen then b.mul? (← nearest? 1 exponent)
  else if b.mantissa = 0 then some b
  else none

/-! ### Shortest digits -/

/-- Of the two neighbours of the number on the grid of multiples of `10 ^ grid`, the one that rounds
back to it, or the nearer one if both do. -/
def onGrid? (tie : Tie) (b : Binary) (grid : Int) : Option Nat :=
  let nearer (down below above : Nat) : Nat :=
    if below < above then down
    else if above < below then down + 1
    else match tie with
      | .toEven => down + down % 2
      | .away => down + 1
  let unit := tens grid * twos (2 - b.power)
  let scale := tens (-grid) * twos (b.power - 2)
  let centre := 4 * b.mantissa * scale
  let narrow := b.mantissa == twos 52 && b.power > leastPower
  let lower := (4 * b.mantissa - if narrow then 1 else 2) * scale
  let upper := (4 * b.mantissa + 2) * scale
  let closed := b.mantissa % 2 == 0
  let inside (c : Nat) : Bool :=
    (lower < c * unit || closed && lower == c * unit) &&
      (c * unit < upper || closed && c * unit == upper)
  let down := centre / unit
  match inside down, inside (down + 1) with
  | true, true => some (nearer down (centre - down * unit) ((down + 1) * unit - centre))
  | true, false => some down
  | false, true => some (down + 1)
  | false, false => none

/-- The number without trailing zeros among its digits. -/
def trimZeros : Nat → Nat → Int → Nat × Int
  | 0, digits, exponent => (digits, exponent)
  | n + 1, digits, exponent =>
    if digits ≠ 0 ∧ digits % 10 = 0 then trimZeros n (digits / 10) (exponent + 1)
    else (digits, exponent)

/-- The number of decimal digits before the point, less the zeros after it if there are none; so a
positive number lies between the powers of ten of the size less one and of the size. -/
def size (b : Binary) : Int :=
  let places : Int := 330
  (Nat.toDigits 10 (b.mantissa * twos b.power * tens places / twos (-b.power))).length - places

/-- The fewest digits that round to the number, of these the nearest; seventeen are always
enough. -/
def shortest (tie : Tie) (negative : Bool) (b : Binary) : Decimal :=
  if b.mantissa = 0 then ⟨negative, 0, 0⟩
  else
    let found := (List.range 17).findSome? fun (n : Nat) =>
      let grid := b.size - (n + 1 : Nat)
      (b.onGrid? tie grid).map fun digits => trimZeros 20 digits grid
    let (digits, exponent) := found.getD (0, 0)
    ⟨negative, digits, exponent⟩

end Binary

namespace Decimal

/-- The fewest digits that round to the same binary number as the given ones, or `none` for a
number that is too large. -/
def shortest? (tie : Tie) (d : Decimal) : Option Decimal :=
  (Binary.nearest? d.digits d.exponent).map (Binary.shortest tie d.negative)

/-! ### Texts -/

def signText (d : Decimal) : String := if d.negative then "-" else ""

/-- The number written out with a decimal point and at least one digit on either side of it. -/
def positional (d : Decimal) : String :=
  let ds := Nat.toDigits 10 d.digits
  let zeros (n : Nat) : List Char := List.replicate n '0'
  let point : Int := ds.length + d.exponent
  d.signText ++ String.ofList (
    if d.exponent ≥ 0 then ds ++ zeros d.exponent.toNat ++ ['.', '0']
    else if point > 0 then ds.take point.toNat ++ '.' :: ds.drop point.toNat
    else ['0', '.'] ++ zeros (-point).toNat ++ ds)

/-- The number with one digit before the point and a power of ten after an `e`, with its sign. -/
def scientific (d : Decimal) : String :=
  let ds := Nat.toDigits 10 d.digits
  let n := (ds.length : Int) + d.exponent - 1
  let power := (if n < 0 then "-" else "+") ++ toString n.natAbs
  match ds with
  | [] => ""
  | [c] => d.signText ++ String.ofList [c] ++ "e" ++ power
  | c :: cs => d.signText ++ String.ofList (c :: '.' :: cs) ++ "e" ++ power

/-- The number written out if its point stands within sixteen digits or five zeros, else with a
power of ten. -/
def render (d : Decimal) : String :=
  let point : Int := (Nat.toDigits 10 d.digits).length + d.exponent
  if d.digits = 0 || (-5 < point && point ≤ 16) then d.positional else d.scientific

end Decimal

end Allowlist
