import Allowlist.Data.Schema
import Allowlist.Yaml.Document
import Allowlist.Yaml.Plain

/-!
# Yaml.Reader — documents of a wanted form from YAML text

A plain text is a null, a truth value or a number only where nothing else is wanted, so a text field
takes every scalar as it is written.  A part that is left empty serves as an empty list or record.
An error of the form names the path of members to the part that does not fit, and its place.  Parts
are read in the order of the text, and the first one that does not fit or makes no sense is
reported.
-/

namespace Allowlist.Yaml

/-! ### What scalars say -/

/-- The tags that give a scalar a type. -/
structure ScalarTag where
  bool : String
  int : String
  real : String
  null : String

/-- The full names of those tags. -/
def scalarTag : ScalarTag :=
  ⟨"tag:yaml.org,2002:bool", "tag:yaml.org,2002:int", "tag:yaml.org,2002:float",
    "tag:yaml.org,2002:null"⟩

/-- What an error calls a whole number. -/
def describeInt (value : Int) : String :=
  (Data.int value).describe ++
    (if value ≥ Nat.pow 2 64 then " as u128"
    else if value < -(Nat.pow 2 63) then " as i128"
    else "")

/-- What an error calls a real number. -/
def describeReal (value : Number) : String :=
  "floating point `" ++ value.render ++ "`"

/-- What an error calls a plain text. -/
def describePlain (text : String) : String :=
  if text = "" ∨ Plain.isNull text then "unit value"
  else match Plain.bool? text with
  | some value => (Data.bool value).describe
  | none =>
    match Plain.int? text with
    | some value => describeInt value
    | none =>
      match if Plain.isPadded text then none else Plain.real? text with
      | some value => describeReal value
      | none => (Data.text text).describe

/-- Why a scalar is not what is wanted: its tag decides what it is, or that it is nothing. -/
def scalarMismatch (tag : Option String) (style : Style) (text expected : String) : Mismatch :=
  let tagged (found : Option String) (name : String) : Mismatch :=
    match found with
    | some found => .wrongType found expected
    | none => .wrongValue (Data.text text).describe name
  let asText := Mismatch.wrongType (Data.text text).describe expected
  let asPlain := if style = .plain then .wrongType (describePlain text) expected else asText
  match tag with
  | none => asPlain
  | some tag =>
    if tag = scalarTag.bool then
      tagged ((Plain.bool? text).map fun value => (Data.bool value).describe) "a boolean"
    else if tag = scalarTag.int then tagged ((Plain.int? text).map describeInt) "an integer"
    else if tag = scalarTag.real then tagged ((Plain.real? text).map describeReal) "a float"
    else if tag = scalarTag.null then
      tagged (if Plain.isNull text then some "unit value" else none) "null"
    else if tag.toList.head? = some '!' then asPlain
    else asText

/-- Why a part is not what is wanted. -/
def Node.mismatch (expected : String) : Node → Mismatch
  | .scalar _ tag style text => scalarMismatch tag style text expected
  | .list _ _ => .wrongType (Data.list []).describe expected
  | .mapping _ _ => .wrongType (Data.object []).describe expected
  | .reference _ _ => .wrongType Data.null.describe expected
  | .broken _ => .wrongType Data.null.describe expected

/-- What a plain text says. -/
def plainData (text : String) : Data :=
  if text = "" ∨ Plain.isNull text then .null
  else match Plain.bool? text, Plain.int? text with
  | some value, _ => .bool value
  | none, some value => .int value
  | none, none =>
    match if Plain.isPadded text then none else Plain.decimal? text with
    | some value => .real value
    | none => .text text

mutual
/-- The part as it reads where no form is wanted.  Aliases are not followed. -/
def Node.toData : Node → Data
  | .scalar _ _ style text => if style = .plain then plainData text else .text text
  | .list _ nodes => .list (itemsData nodes)
  | .mapping _ entries => .object (Keyed.ofList (entriesData entries))
  | .reference _ _ => .null
  | .broken _ => .null

def itemsData : List Node → List Data
  | [] => []
  | node :: nodes => node.toData :: itemsData nodes

/-- The entries whose keys are texts. -/
def entriesData : List (Node × Node) → List (String × Data)
  | [] => []
  | (.scalar _ _ _ name, node) :: entries => (name, node.toData) :: entriesData entries
  | _ :: entries => entriesData entries
end

/-! ### Wanted forms -/

/-- The way from the top of a document to a part of it. -/
inductive Route where
  | root
  | member (parent : Route) (name : String)
  | item (parent : Route) (index : Nat)
  /-- The value of a key that is no text. -/
  | unnamed (parent : Route)

namespace Route

def render : Route → String
  | root => "."
  | member root name => name
  | member parent name => parent.render ++ "." ++ name
  | item parent index => parent.render ++ "[" ++ toString index ++ "]"
  | unnamed root => "?"
  | unnamed parent => parent.render ++ ".?"

/-- The start of an error about the part, unless it is the whole document. -/
def lead : Route → String
  | root => ""
  | route => route.render ++ ": "

end Route

/-- Why a part of a document does not have the wanted form, and the part, as far as it is known. -/
structure Misfit where
  cause : Mismatch
  place : Option (Route × Mark)

def Misfit.message (m : Misfit) : String :=
  match m.place with
  | none => m.cause.message
  | some (route, mark) => route.lead ++ m.cause.message ++ mark.note

/-- Why a text holds no document of the wanted form. -/
inductive Error where
  | syntaxError (cause : SyntaxError)
  | misfit (cause : Misfit)
  | manyDocuments
  | manyAliases

namespace Error

def message : Error → String
  | syntaxError cause => cause.message
  | misfit cause => cause.message
  | manyDocuments =>
    "deserializing from YAML containing more than one document is not supported"
  | manyAliases => "repetition limit exceeded"

/-- A misfit of a part that is not known yet. -/
def ofMismatch (cause : Mismatch) : Error := misfit ⟨cause, none⟩

/-- The error, about the given part unless it is about another one already. -/
def locate (route : Route) (mark : Mark) : Error → Error
  | misfit ⟨cause, none⟩ => misfit ⟨cause, some (route, mark)⟩
  | error => error

end Error

/-- The complaint that a part at the given place is not what is wanted. -/
def Node.misfit (node : Node) (route : Route) (expected : String) : Error :=
  .misfit ⟨node.mismatch expected, some (route, node.mark)⟩

/-- A part as it reads where no form is wanted, if the text makes sense throughout it. -/
def wholeData (node : Node) : Except Error Data :=
  match node.fault? with
  | none => .ok node.toData
  | some cause => .error (.syntaxError cause)

/-- A reader of the parts of a document, with the number of aliases that it may still follow. -/
abbrev Reading := StateT Nat (Except Error)

namespace Reading

/-- The part that a part of the document `root` stands for. -/
def follow (root node : Node) : Reading Node := do
  if let .reference _ _ := node then
    if (← get) = 0 then throw .manyAliases
    modify (· - 1)
  return root.follow node

/-- The reader, with its errors about the given part unless they are about another one already. -/
def locate {α : Type} (route : Route) (mark : Mark) (reading : Reading α) : Reading α :=
  fun left => (reading left).mapError (.locate route mark)

/-- The items in the form that `read` gives each of them. -/
def items (read : Route → Node → Reading Data) (route : Route) :
    Nat → List Node → Reading (List Data)
  | _, [] => return []
  | n, node :: nodes => do
    let data ← read (.item route n) node
    return data :: (← items read route (n + 1) nodes)

/-- The text that a key spells. -/
def keyText (root : Node) (route : Route) (expected : String) (key : Node) : Reading String := do
  match ← follow root key with
  | .scalar _ _ _ text => return text
  | .broken cause => throw (.syntaxError cause)
  | node => throw (node.misfit route expected)

/-- The way to the value of a key. -/
def valueRoute (route : Route) : Node → Route
  | .scalar _ _ _ name => .member route name
  | _ => .unnamed route

/-- The entries of a mapping in the form that `read` gives each of them. -/
def entries (root : Node) (read : Route → Node → Reading Data) (route : Route) :
    List (Node × Node) → Reading (List (String × Data))
  | [] => return []
  | (key, node) :: rest => do
    let name ← keyText root route "a string" key
    let data ← read (valueRoute route key) node
    return (name, data) :: (← entries root read route rest)

/-- The entries that are fields, each in the form that `field?` gives it, added to those before. -/
def fields (root : Node) (closed : Bool) (known : List String)
    (field? : String → Option (Route → Node → Reading Data)) (route : Route) :
    List (Node × Node) → List (String × Data) → Reading (List (String × Data))
  | [], present => return present
  | (key, node) :: rest, present => do
    let name ← keyText root route "field identifier" key
    match field? name with
    | some read =>
      if (present.lookup name).isSome then throw (.ofMismatch (.duplicateField name))
      let data ← read (valueRoute route key) node
      fields root closed known field? route rest (Keyed.insert name data present)
    | none =>
      if closed then
        throw (.misfit ⟨.unknownField name known, some (route, (root.follow key).mark)⟩)
      discard (wholeData node)
      fields root closed known field? route rest present

end Reading

/-- A record with the fields that are missing from it. -/
def fill (fields : List (String × Option Data × Schema)) (present : List (String × Data)) :
    Except Error Data :=
  match Schema.fillMissing fields present with
  | .ok all => .ok (.object all)
  | .error cause => .error (.ofMismatch cause)

/-- The truth value that a scalar says. -/
def boolData? (tag : Option String) (style : Style) (text : String) : Option Data :=
  if style = .plain ∨ style = .literal ∧ tag = some scalarTag.bool then
    (Plain.bool? text).map .bool
  else none

/-- A scalar that says that nothing is there; one that is tagged so must say so. -/
def readNull (tag : Option String) (style : Style) (text : String) : Except Error Bool :=
  if style ≠ .plain then .ok false
  else match tag with
  | none => .ok (text = "" || Plain.isNull text)
  | some tag =>
    if tag ≠ scalarTag.null then .ok false
    else if Plain.isNull text then .ok true
    else .error (.ofMismatch (.wrongValue (Data.text text).describe "null"))

mutual
/-- The part of the document `root` at `route` in the wanted form. -/
def read (root : Node) : Schema → Route → Node → Reading Data
  | .any, _, node => wholeData node
  | schema, route, node => do
    match schema, ← Reading.follow root node with
    | _, .broken cause => throw (.syntaxError cause)
    | .optional inner, .scalar start tag style text =>
      if ← readNull tag style text then return .null
      else read root inner route (.scalar start tag style text)
    | .optional inner, node => read root inner route node
    | .text, .scalar _ _ _ text => return .text text
    | .bool, .scalar start tag style text =>
      match boolData? tag style text with
      | some data => return data
      | none => throw ((Node.scalar start tag style text).misfit route Schema.bool.expected)
    | .list item, .list start nodes =>
      Reading.locate route start.mark do
        return .list (← Reading.items (read root item) route 0 nodes)
    | .list _, .scalar _ _ .plain "" => return .list []
    | .map value, .mapping start entries =>
      Reading.locate route start.mark do
        return .object (Keyed.ofList (← Reading.entries root (read root value) route entries))
    | .map _, .scalar _ _ .plain "" => return .object []
    | .record _ closed fields, .mapping start entries =>
      Reading.locate route start.mark do
        let known := fields.map Prod.fst
        let present ← Reading.fields root closed known (field? root fields) route entries []
        fill fields present
    | .record _ _ fields, .scalar start _ .plain "" =>
      Reading.locate route start.mark (fill fields [])
    | schema, node => throw (node.misfit route schema.expected)

/-- The reader for the value of the field `name`, if there is such a field. -/
def field? (root : Node) : List (String × Option Data × Schema) → String →
    Option (Route → Node → Reading Data)
  | [], _ => none
  | (field, _, schema) :: rest, name =>
    if field == name then some (read root schema) else field? root rest name
end

/-! ### Whole texts -/

/-- The number of aliases that may be followed for each part of a document. -/
def aliasesPerPart : Nat := 100

/-- A document in the wanted form, if the text makes sense up to its end. -/
def Document.read (schema : Schema) (document : Document) : Except Error Data := do
  let aliases := aliasesPerPart * document.root.size
  let (data, _) ← (Yaml.read document.root schema .root document.root).run aliases
  match document.fault with
  | none => return data
  | some cause => throw (.syntaxError cause)

/-- The one document that a text writes, in the wanted form. -/
def decode (schema : Schema) (text : String) : Except Error Data :=
  match Document.ofText text with
  | [] => Document.read schema ⟨.empty .start, none⟩
  | document :: others => do
    let data ← document.read schema
    if others.isEmpty then return data else throw .manyDocuments

/-- All documents that a text writes, in the wanted form; there is at least one. -/
def decodeAll (schema : Schema) (text : String) : Except Error (List Data) :=
  (Document.ofText text).mapM (Document.read schema)

end Allowlist.Yaml
