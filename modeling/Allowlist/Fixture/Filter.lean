import Allowlist.Pairs
import Allowlist.Params.Basic

/-!
# Fixture.Filter — recorded results of a parameter filter

A filter fixture lists a configuration, and inputs with the pairs expected to be kept or the kind of
error expected.  Kept pairs are compared as sorted lines, so the order of the values of one key does
not matter.
-/

namespace Allowlist.Fixture

/-- An input, and the lines or the kind of error expected of it. -/
structure FilterCase where
  name : String
  input : List String
  expect : List String
  error : Option String

structure FilterFixture where
  name : String
  description : String
  require : Option String
  permit : List String
  cases : List FilterCase

namespace FilterFixture

/-- The form of a written filter fixture. -/
def schema : Schema :=
  .record "FilterFixture" false
    [("name", none, .text), ("description", some (.text ""), .text),
      ("require", some .null, .optional .text), ("permit", some (.list []), .list .text),
      ("cases", none, .list <| .record "FilterCase" false
        [("name", none, .text), ("input", none, .list .text),
          ("expect", some (.list []), .list .text), ("error", some .null, .optional .text)])]

/-- The case that a document of its form holds. -/
def caseOfFitted (data : Data) : FilterCase where
  name := ((data.member? "name").bind Data.text?).getD ""
  input := ((data.member? "input").map Data.textItems).getD []
  expect := ((data.member? "expect").map Data.textItems).getD []
  error := (data.member? "error").bind Data.text?

/-- The fixture that a document of the form holds. -/
def ofFitted (data : Data) : FilterFixture where
  name := ((data.member? "name").bind Data.text?).getD ""
  description := ((data.member? "description").bind Data.text?).getD ""
  require := (data.member? "require").bind Data.text?
  permit := ((data.member? "permit").map Data.textItems).getD []
  cases := ((data.member? "cases").map fun d => d.items.map caseOfFitted).getD []

/-- The filter that the fixture is about. -/
def params (fixture : FilterFixture) : Except Params.Error Params :=
  Params.ofConfig ⟨fixture.require, fixture.permit⟩

/-- The lines in increasing order. -/
def sortLines (lines : List String) : List String :=
  lines.mergeSort fun a b => decide (a ≤ b)

/-- A complaint that two values are not equal, with both of them. -/
def unequal (text left right : String) : String :=
  "assertion `left == right` failed: " ++ text ++ "\n  left: " ++ left ++ "\n right: " ++ right

/-- Runs one case; the error is the complaint about what was not as expected. -/
def checkCase (fixture : String) (params : Params) (c : FilterCase) : Except String Unit :=
  let title := "Fixture '" ++ fixture ++ "' case '" ++ c.name ++ "'"
  match params.filter (Pairs.form c.input), c.error with
  | .ok kept, none =>
    let actual := sortLines kept.lines
    let expected := sortLines c.expect
    if actual = expected then .ok ()
    else .error (unequal (title ++ " filtered wrong") (Outline.texts actual).compact
      (Outline.texts expected).compact)
  | .error e, some kind =>
    if e.kind = kind then .ok ()
    else .error (unequal (title ++ " failed with the wrong error: " ++ e.message)
      (Text.quote e.kind) (Text.quote kind))
  | .ok kept, some kind =>
    .error (title ++ ": expected " ++ kind ++ ", got " ++ kept.outline.compact)
  | .error e, none => .error (title ++ " failed: " ++ e.message)

/-- Runs the fixture; the error is the complaint about what was not as expected. -/
def check (fixture : FilterFixture) : Except String Unit :=
  match fixture.params with
  | .error e => .error ("Fixture '" ++ fixture.name ++ "' config failed: " ++ e.message)
  | .ok params => fixture.cases.forM (checkCase fixture.name params)

end FilterFixture

end Allowlist.Fixture
