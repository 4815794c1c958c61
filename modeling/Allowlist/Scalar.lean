/-!
# Scalar — single values read from text

A scalar is a whole number of a fixed width, a truth value, one character, or the text itself.
Whole numbers are an optional sign and decimal digits; the digits are read from left to right, and
the first of them that is no digit, or that takes the number out of range, decides the error.
-/

namespace Allowlist

namespace Scalar

/-- The type that a text is read as. -/
inductive Kind where
  | unsigned (bits : Nat)
  | signed (bits : Nat)
  | bool
  | char
  | text

/-- Why a text is no value of its type. -/
inductive Error where
  | emptyNumber
  | invalidDigit
  | tooLarge
  | tooSmall
  | notBool
  | emptyChar
  | manyChars
deriving DecidableEq

def Error.message : Error → String
  | emptyNumber => "cannot parse integer from empty string"
  | invalidDigit => "invalid digit found in string"
  | tooLarge => "number too large to fit in target type"
  | tooSmall => "number too small to fit in target type"
  | notBool => "provided string was not `true` or `false`"
  | emptyChar => "cannot parse char from empty string"
  | manyChars => "too many characters in string"

end Scalar

/-- A value that a text denotes. -/
inductive Scalar where
  | int (value : Int)
  | bool (value : Bool)
  | char (value : Char)
  | text (value : String)
deriving DecidableEq

namespace Scalar

/-- The digits appended to a non-negative number that stays at or below `greatest`. -/
def readUp (greatest : Int) : Int → List Char → Except Error Int
  | n, [] => .ok n
  | n, c :: cs =>
    if !c.isDigit then .error .invalidDigit
    else
      let next := 10 * n + (c.toNat - '0'.toNat : Nat)
      if next > greatest then .error .tooLarge else readUp greatest next cs

/-- The digits appended to a non-positive number that stays at or above `least`. -/
def readDown (least : Int) : Int → List Char → Except Error Int
  | n, [] => .ok n
  | n, c :: cs =>
    if !c.isDigit then .error .invalidDigit
    else
      let next := 10 * n - (c.toNat - '0'.toNat : Nat)
      if next < least then .error .tooSmall else readDown least next cs

/-- The whole number between `least` and `greatest` that a text writes; a minus sign is a sign
only where negative numbers exist. -/
def readInt (least greatest : Int) (text : List Char) : Except Error Int :=
  match text with
  | [] => .error .emptyNumber
  | ['+'] => .error .invalidDigit
  | ['-'] => .error .invalidDigit
  | '+' :: digits => readUp greatest 0 digits
  | '-' :: digits =>
    if least < 0 then readDown least 0 digits else .error .invalidDigit
  | digits => readUp greatest 0 digits

/-- The value of the given kind that a text denotes. -/
def read (kind : Kind) (text : String) : Except Error Scalar :=
  match kind with
  | .unsigned bits => (readInt 0 (Nat.pow 2 bits - 1) text.toList).map .int
  | .signed bits =>
    (readInt (-(Nat.pow 2 (bits - 1))) (Nat.pow 2 (bits - 1) - 1) text.toList).map .int
  | .bool =>
    if text = "true" then .ok (.bool true)
    else if text = "false" then .ok (.bool false)
    else .error .notBool
  | .char =>
    match text.toList with
    | [] => .error .emptyChar
    | [c] => .ok (.char c)
    | _ => .error .manyChars
  | .text => .ok (.text text)

/-- The shortest text that denotes the value. -/
def render : Scalar → String
  | int value => toString value
  | bool value => if value then "true" else "false"
  | char value => value.toString
  | text value => value

end Scalar

end Allowlist
