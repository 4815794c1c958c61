import Allowlist.Fixture.Filter
import Allowlist.Fixture.Rules
import Allowlist.Main
import Allowlist.Proofs.Distinct
import Allowlist.Proofs.Outcome
import Allowlist.Proofs.Rule.Group
import Allowlist.Proofs.Shape.Merge
import Allowlist.Proofs.Rule.Reduction
import Allowlist.Proofs.Rule.Soundness
import Allowlist.Proofs.Rule.Compile
import Allowlist.Proofs.RuleSet
import Allowlist.Proofs.Params.Filter
import Allowlist.Proofs.Params.Reroot
import Allowlist.Proofs.Params.Overwrite
import Allowlist.Proofs.Document.Address
import Allowlist.Proofs.Document.Keys
import Allowlist.Proofs.Params.Decode
import Allowlist.Proofs.Rule.Declared
import Allowlist.Proofs.Rule.Render
import Allowlist.Proofs.RuleSet.Render
import Allowlist.Proofs.Document.Holds
import Allowlist.Proofs.Document.Conflict
import Allowlist.Proofs.Document.Place
import Allowlist.Proofs.Document.Stored
import Allowlist.Proofs.Document.Content
import Allowlist.Proofs.Values
import Allowlist.Proofs.Document.Spell
import Allowlist.Proofs.Document.Flatten
import Allowlist.Proofs.Document.Roundtrip
import Allowlist.Proofs.Params.Rooted
import Allowlist.Proofs.Shape.Agree
import Allowlist.Proofs.RuleSet.Pairs
import Allowlist.Proofs.Rule.Unambiguous
import Allowlist.Proofs.Shape.Alike
import Allowlist.Proofs.Rule.Alike
import Allowlist.Proofs.Rule.Reordered
import Allowlist.Proofs.RuleSet.Order
import Allowlist.Proofs.Matched
import Allowlist.Proofs.Path.Render
import Allowlist.Proofs.Shape.Prune
import Allowlist.Proofs.RuleSet.Route
import Allowlist.Proofs.Params.Decodable
import Allowlist.Proofs.Shape.Algebra
import Allowlist.Proofs.RuleSet.Joined
import Allowlist.Proofs.Params.Beneath
import Allowlist.Proofs.Rule.References
import Allowlist.Proofs.Rule.Reader
import Allowlist.Proofs.Bytes
import Allowlist.Proofs.Rule.Written
import Allowlist.Proofs.Rule.Legible
import Allowlist.Proofs.Rule.Intact
import Allowlist.Proofs.Shape.Conflict
import Allowlist.Proofs.Rule.Conflict
import Allowlist.Proofs.Rule.Inside
import Allowlist.Proofs.RuleSet.Conflict
import Allowlist.Proofs.RuleSet.Walk
import Allowlist.Proofs.RuleSet.Report
import Allowlist.Proofs.RuleSet.Depth
import Allowlist.Proofs.Rule.Invalid
import Allowlist.Proofs.Document.RenumberValues
import Allowlist.Proofs.Params.Built
import Allowlist.Proofs.Command
import Allowlist.Proofs.Fixture
