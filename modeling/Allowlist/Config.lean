import Allowlist.Data.Schema
import Allowlist.Json.Reader
import Allowlist.Yaml.Reader

/-!
# Config — parameter filters as they are written down

A configuration names an optional required root and a list of rules.  Both may be missing, and no
other member is allowed.  It is written in JSON or in YAML.
-/

namespace Allowlist

structure Config where
  require : Option String
  permit : List String
deriving DecidableEq

namespace Config

/-- The form of a written configuration. -/
def schema : Schema :=
  .record "ParamsConfig" true
    [("require", some .null, .optional .text), ("permit", some (.list []), .list .text)]

/-- The configuration that a document of that form holds. -/
def ofFitted (data : Data) : Config where
  require := (data.member? "require").bind Data.text?
  permit := ((data.member? "permit").map Data.textItems).getD []

/-- The configuration that a document holds. -/
def ofData (data : Data) : Except Mismatch Config :=
  (schema.fit data).map ofFitted

/-- The configuration that a JSON text writes. -/
def ofJson (text : String) : Except Json.Error Config :=
  (Json.decode schema text).map ofFitted

/-- The configuration that a YAML text writes. -/
def ofYaml (text : String) : Except Yaml.Error Config :=
  (Yaml.decode schema text).map ofFitted

end Config

end Allowlist
