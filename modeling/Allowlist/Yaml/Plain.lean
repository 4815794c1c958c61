import Allowlist.Decimal
import Allowlist.Text.Hex

/-!
# Yaml.Plain — what plain texts say

Where no text is wanted, a plain text can be a null, a truth value or a number.  Whole numbers have
up to 128 bits; a greater one without a base is a real number, and so is all that has a point or an
exponent and is not too large for one.
-/

namespace Allowlist.Yaml

/-- What a plain text that is no whole number can write. -/
inductive Number where
  | finite (value : Decimal)
  | infinite (negative : Bool)
  | undefined

namespace Number

/-- The number written out. -/
def render : Number → String
  | finite value => value.positional
  | infinite negative => if negative then "-inf" else "inf"
  | undefined => "NaN"

end Number

namespace Plain

def isNull (text : String) : Bool :=
  ["null", "Null", "NULL", "~"].contains text

def bool? (text : String) : Option Bool :=
  if ["true", "True", "TRUE"].contains text then some true
  else if ["false", "False", "FALSE"].contains text then some false
  else none

/-! ### Whole numbers -/

/-- The sign of a number, and what follows it. -/
def splitSign : List Char → Bool × List Char
  | '-' :: rest => (true, rest)
  | '+' :: rest => (false, rest)
  | rest => (false, rest)

/-- Digits with a zero in front, which are no number. -/
def isPadded (text : String) : Bool :=
  match (splitSign text.toList).2 with
  | '0' :: c :: ds => (c :: ds).all Char.isDigit
  | _ => false

/-- The natural number that one or more digits of the base write. -/
def digitsValue? (base : Nat) (digits : List Char) : Option Nat :=
  if digits.isEmpty then none else Text.digitsValue? base 0 digits

/-- The natural number that a text without sign writes, in one of four bases. -/
def natural? : List Char → Option Nat
  | '0' :: 'x' :: ds => digitsValue? 16 ds
  | '0' :: 'o' :: ds => digitsValue? 8 ds
  | '0' :: 'b' :: ds => digitsValue? 2 ds
  | ds => digitsValue? 10 ds

/-- The whole number that a text writes, if it has up to 128 bits. -/
def int? (text : String) : Option Int :=
  if isPadded text then none
  else
    let (negative, rest) := splitSign text.toList
    (natural? rest).bind fun n =>
      if negative then (if n ≤ Nat.pow 2 127 then some (-n) else none)
      else if n < Nat.pow 2 128 then some n
      else none

/-! ### Real numbers -/

/-- The power of ten after the digits of a number. -/
def power? : List Char → Option Int
  | [] => some 0
  | e :: rest =>
    let (negative, ds) := splitSign rest
    if (e == 'e' || e == 'E') && !ds.isEmpty && ds.all Char.isDigit then
      let n := Nat.ofDigitChars 10 ds 0
      some (if negative then -n else n)
    else none

/-- The decimal number that a text writes, if it is not too large. -/
def decimal? (text : String) : Option Decimal := do
  let (negative, rest) := splitSign text.toList
  let whole := rest.takeWhile Char.isDigit
  let (fraction, rest) := match rest.dropWhile Char.isDigit with
    | '.' :: rest => (rest.takeWhile Char.isDigit, rest.dropWhile Char.isDigit)
    | rest => ([], rest)
  if whole.isEmpty && fraction.isEmpty then none
  let power ← power? rest
  Decimal.shortest? .away
    ⟨negative, Nat.ofDigitChars 10 (whole ++ fraction) 0, power - fraction.length⟩

/-- The real number that a text writes. -/
def real? (text : String) : Option Number :=
  if [".inf", ".Inf", ".INF", "+.inf", "+.Inf", "+.INF"].contains text then some (.infinite false)
  else if ["-.inf", "-.Inf", "-.INF"].contains text then some (.infinite true)
  else if [".nan", ".NaN", ".NAN"].contains text then some .undefined
  else (decimal? text).map .finite

end Plain

end Allowlist.Yaml
