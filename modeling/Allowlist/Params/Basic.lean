import Allowlist.Config
import Allowlist.Params.Error
import Allowlist.RuleSet

/-!
# Params — request data filtered and decoded

A filter has an optional required root and an optional rule set.  With a root, only keys under it
are kept, and they lose it: `root[a][b]` becomes `a[b]`.  With rules, only permitted keys are kept.
What is kept can then be decoded into a nested document of a wanted form.
-/

namespace Allowlist

/-- An optional required root, and optional rules. -/
structure Params where
  require : Option String
  rules : Option RuleSet
deriving DecidableEq

namespace Params

/-- No root and no rules: every key passes. -/
def unrestricted : Params := ⟨none, none⟩

/-- The filter with a required root. -/
def withRoot (params : Params) (root : String) : Except Error Params :=
  if root = "" then .error .emptyRequiredKey else .ok { params with require := some root }

/-- The filter with the given rules in place of those it had. -/
def withRules (params : Params) (rules : List String) : Except Error Params := do
  let rules ← (RuleSet.compile rules).mapError .rules
  return { params with rules := some rules }

/-- The filter that a configuration describes; an empty list of rules is none. -/
def ofConfig (config : Config) : Except Error Params := do
  let params ← match config.require with
    | none => .ok unrestricted
    | some root => unrestricted.withRoot root
  if config.permit.isEmpty then return params else params.withRules config.permit

/-! ### The required root -/

/-- The key is the root, or lies under it. -/
def isUnder (root key : String) : Bool :=
  match root.toList.isPrefixOf? key.toList with
  | some [] => true
  | some ('[' :: _) => true
  | _ => false

/-- The key without the root: `root[` and the first closing bracket after it are dropped. -/
def reroot? (root key : String) : Option String :=
  match root.toList.isPrefixOf? key.toList with
  | some ('[' :: rest) => some (String.ofList (rest.erase ']'))
  | _ => none

/-! ### Filtering -/

/-- The rules, if there are any, permit the key. -/
def allows (params : Params) (key : String) : Bool :=
  params.rules.all (·.permits key)

/-- The key without the required root, if it lies under it. -/
def rerooted? (params : Params) (key : String) : Option String :=
  match params.require with
  | some root => reroot? root key
  | none => some key

/-- The key under which a key of the request is kept, if it is. -/
def keptAs? (params : Params) (key : String) : Option String :=
  (params.rerooted? key).filter params.allows

/-- The keys that the rules do not permit, without the required root. -/
def dropped (params : Params) (values : Values) : List String :=
  (values.keys.filterMap params.rerooted?).filter (!params.allows ·)

/-- The values of the kept keys.  When two keys are kept under one key, the later one counts. -/
def filter (params : Params) (values : Values) : Except Error Values :=
  let kept := values.entries.foldl (fun kept entry =>
    match params.keptAs? entry.1 with
    | some key => kept.put key entry.2
    | none => kept) Values.empty
  match params.require with
  | some root =>
    if values.keys.any (isUnder root) then .ok kept else .error (.missingRequiredKey root)
  | none => .ok kept

/-! ### Decoding -/

/-- The values as a document of the wanted form. -/
def decodeValues (schema : Schema) (values : Values) : Except Error Data := do
  let document ← (Document.ofValues values).mapError .document
  (schema.fit document).mapError .decode

/-- The kept values as a document of the wanted form. -/
def decode (params : Params) (schema : Schema) (values : Values) : Except Error Data := do
  decodeValues schema (← params.filter values)

/-- The first value of a key, read as a scalar. -/
def requireOne (kind : Scalar.Kind) (values : Values) (key : String) : Except Error Scalar :=
  if key = "" then .error .emptyRequiredKey
  else if !values.contains key then .error (.missingRequiredKey key)
  else
    let value := (values.get? key).getD ""
    (Scalar.read kind value).mapError (.parse key value)

end Params

end Allowlist
