import Allowlist.Shape.Basic

/-!
# Shape.Render — shapes as rule text

The rule that denotes a shape: members in name order, names that hold a blank in single quotes,
array elements in their order.  A bare `key` has no text of its own; it only means something
under a name.
-/

namespace Allowlist.Shape

/-- A member name as a rule writes it. -/
def renderName (name : String) : String :=
  if ' ' ∈ name.toList then "'" ++ name ++ "'" else name

mutual
/-- The rule text of a shape. -/
def render : Shape → String
  | key => ""
  | object members => "\x7b" ++ ", ".intercalate (memberTexts members) ++ "\x7d"
  | array elements => "[" ++ ", ".intercalate (elementTexts elements) ++ "]"

/-- Each member: its name, and after a colon its group if it is not a key. -/
def memberTexts : List (String × Shape) → List String
  | [] => []
  | (name, shape) :: members =>
    (if shape.isKey then renderName name else renderName name ++ ":" ++ shape.render) ::
      memberTexts members

/-- The text of each element. -/
def elementTexts : List Shape → List String
  | [] => []
  | shape :: shapes => shape.render :: elementTexts shapes
end

/-- A path of member names from the top: the first name bare, each further one in brackets. -/
def renderPath : List String → String
  | [] => ""
  | name :: names => name ++ String.join (names.map fun n => "[" ++ n ++ "]")

end Allowlist.Shape
