import Allowlist.Data.Schema
import Allowlist.Document
import Allowlist.Rule.Error
import Allowlist.Scalar

/-!
# Params.Error — why parameters are refused

Each error has a kind, by which configurations and tests name it, and a sentence for people.
-/

namespace Allowlist.Params

inductive Error where
  | emptyRequiredKey
  | missingRequiredKey (key : String)
  | rules (cause : Rule.Error)
  | document (cause : Document.Error)
  /-- The document does not have the wanted form. -/
  | decode (cause : Mismatch)
  /-- A single value is not of the wanted type. -/
  | parse (key value : String) (cause : Scalar.Error)
  /-- A configuration cannot be read. -/
  | invalidConfig (reason : String)
deriving DecidableEq

namespace Error

/-- The name of the kind of error. -/
def kind : Error → String
  | emptyRequiredKey => "empty_required_key"
  | missingRequiredKey _ => "missing_required_key"
  | rules _ => "compile"
  | document (.invalidPath _) => "invalid_path"
  | document (.conflictingPath _) => "conflicting_path"
  | decode _ => "decode"
  | parse _ _ _ => "parse_value"
  | invalidConfig _ => "invalid_config"

/-- The sentence that tells a person what is wrong. -/
def message : Error → String
  | emptyRequiredKey => "required key cannot be empty"
  | missingRequiredKey key => "missing required key `" ++ key ++ "`"
  | rules cause => "invalid permit rules: " ++ cause.message
  | document (.invalidPath path) => "key `" ++ path ++ "` is not a valid bracket path"
  | document (.conflictingPath path) =>
    "key `" ++ path ++ "` conflicts with the shape of another key"
  | decode cause => "decode failed: " ++ cause.message
  | parse key value cause =>
    "failed to parse key `" ++ key ++ "`, value `" ++ value ++ "`: " ++ cause.message
  | invalidConfig reason => "invalid config: " ++ reason

end Error

end Allowlist.Params
