import Allowlist.RuleSet
import Allowlist.Data.Schema

/-!
# Fixture.Rules — recorded decisions of a rule set

A rule fixture lists rules, and paths with the decision expected for each.  A fixture may instead
expect that its rules do not compile.
-/

namespace Allowlist.Fixture

/-- A path and whether it should be permitted. -/
structure PathCase where
  path : String
  expect : Bool

structure RuleFixture where
  name : String
  description : String
  rules : List String
  cases : List PathCase
  /-- The rules should not compile. -/
  error : Bool

/-- What became of one path. -/
structure PathResult where
  path : String
  passed : Bool
  expected : Bool
  actual : Bool

namespace RuleFixture

/-- The form of a written rule fixture. -/
def schema : Schema :=
  .record "Fixture" false
    [("name", none, .text), ("description", some (.text ""), .text), ("rules", none, .list .text),
      ("cases", some (.list []), .list <| .record "TestCase" false
        [("path", none, .text), ("expect", none, .bool)]),
      ("error", some (.bool false), .bool)]

/-- The path case that a document of its form holds. -/
def caseOfFitted (data : Data) : PathCase where
  path := ((data.member? "path").bind Data.text?).getD ""
  expect := ((data.member? "expect").bind Data.bool?).getD false

/-- The fixture that a document of the form holds. -/
def ofFitted (data : Data) : RuleFixture where
  name := ((data.member? "name").bind Data.text?).getD ""
  description := ((data.member? "description").bind Data.text?).getD ""
  rules := ((data.member? "rules").map Data.textItems).getD []
  cases := ((data.member? "cases").map fun d => d.items.map caseOfFitted).getD []
  error := ((data.member? "error").bind Data.bool?).getD false

/-- The decisions of the compiled rules. -/
def run (fixture : RuleFixture) : Except Rule.Error (List PathResult) := do
  let set ← RuleSet.compile fixture.rules
  return fixture.cases.map fun c =>
    let actual := set.permits c.path
    ⟨c.path, actual == c.expect && (set.report c.path).permitted == actual, c.expect, actual⟩

/-- The complaint about the first path that fared otherwise than expected. -/
def complaint? (name : String) (results : List PathResult) : Option String :=
  (results.find? (!·.passed)).map fun result =>
    "Fixture '" ++ name ++ "' path '" ++ result.path ++ "' failed: expected " ++
      toString result.expected ++ ", got " ++ toString result.actual

/-- Runs the fixture; the error is the complaint about what was not as expected. -/
def check (fixture : RuleFixture) : Except String Unit :=
  match fixture.run with
  | .ok results =>
    if fixture.error then
      .error ("Fixture '" ++ fixture.name ++ "' compiled, expected a compile error")
    else match complaint? fixture.name results with
      | some text => .error text
      | none => .ok ()
  | .error e =>
    if fixture.error then .ok ()
    else .error ("Fixture '" ++ fixture.name ++ "' failed to compile: " ++ e.message)

end RuleFixture

end Allowlist.Fixture
