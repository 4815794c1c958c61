import Allowlist.Pairs
import Allowlist.Params.Basic
import Allowlist.Report

/-!
# Command — the command line

Three commands: `check` compiles rules and prints their shape, `match` decides paths, and `filter`
applies a configuration file to pairs.  Arguments, and the text of the file that they name,
determine what is printed and the exit code; nothing here touches the world.  What is logged is no
part of the outcome, as far as each entry stays on its line.
-/

namespace Allowlist.Command

/-- What a run of the program leaves behind. -/
structure Outcome where
  code : Nat
  stdout : String
  stderr : String
deriving DecidableEq

/-! ### Files -/

/-- Why a file cannot be read. -/
inductive FileError where
  | missing
  | directory
  | notDirectory
  | nameTooLong
  | notText
  | other (reason : String)
deriving DecidableEq

def FileError.message : FileError → String
  | missing => "No such file or directory (os error 2)"
  | directory => "Is a directory (os error 21)"
  | notDirectory => "Not a directory (os error 20)"
  | nameTooLong => "File name too long (os error 36)"
  | notText => "stream did not contain valid UTF-8"
  | other reason => reason

/-- What there is to read: a text for each path, or why there is none. -/
abbrev Files := String → Except FileError String

/-- The names on the way to a file. -/
def pathNames (path : String) : List (List Char) :=
  (path.toList.splitOn '/').filter fun name => name ≠ [] ∧ name ≠ ['.']

/-- The greatest number of bytes of a name. -/
def nameBytes : Nat := 255

/-- The greatest number of bytes of a path. -/
def pathBytes : Nat := 4095

/-- The folders that stand at the top of every system. -/
def systemFolders : List String :=
  ["bin", "boot", "dev", "etc", "home", "lib", "media", "mnt", "opt", "proc", "root", "run", "sbin",
    "srv", "sys", "tmp", "usr", "var"]

/-- The device that is an empty file. -/
def emptyDevice : List (List Char) := ["dev".toList, "null".toList]

/-- What stands at the end of a part of a path. -/
inductive Place where
  /-- A folder above the one in which the program runs. -/
  | above
  /-- A file or folder, with the names on the way to it from the top of the system. -/
  | system (names : List (List Char))
  /-- A file or folder, with the names on the way to it from where the program runs. -/
  | inside (names : List (List Char))

namespace Place

/-- The text of a file that stands here. -/
def text? (folder : List (String × String)) : Place → Option String
  | above => none
  | system names => if names = emptyDevice then some "" else none
  | inside names => (folder.find? fun file => pathNames file.1 == names).map Prod.snd

/-- There is something here, as far as is known. -/
def exists? (folder : List (String × String)) : Place → Bool
  | above => true
  | system names =>
    names.isPrefixOf emptyDevice || systemFolders.any fun name => names == [name.toList]
  | inside names => names.isEmpty || folder.any fun file => names.isPrefixOf (pathNames file.1)

/-- The folder around this one. -/
def parent : Place → Place
  | above => above
  | system names => system names.dropLast
  | inside [] => above
  | inside (name :: names) => inside (name :: names).dropLast

/-- What has the name in this folder; of the folders above nothing else is known. -/
def child? : Place → List Char → Option Place
  | above, _ => none
  | system names, name => some (system (names ++ [name]))
  | inside names, name => some (inside (names ++ [name]))

/-- The place one name further on. -/
def next (folder : List (String × String)) (place : Place) (name : List Char) :
    Except FileError Place :=
  if (place.text? folder).isSome then .error .notDirectory
  else if name = [] ∨ name = ['.'] then .ok place
  else if name = ['.', '.'] then .ok place.parent
  else if nameBytes < (String.ofList name).utf8ByteSize then .error .nameTooLong
  else
    match (place.child? name).filter (exists? folder) with
    | some place => .ok place
    | none => .error .missing

end Place

/-- The files of the folder in which the program runs, by their relative paths. -/
def Files.ofFolder (folder : List (String × String)) : Files := fun path => do
  if path = "" then throw .missing
  if pathBytes < path.utf8ByteSize then throw .nameTooLong
  let start := if path.toList.head? = some '/' then Place.system [] else Place.inside []
  let place ← (path.toList.splitOn '/').foldlM (Place.next folder) start
  match place.text? folder with
  | some text => return text
  | none => throw .directory

/-! ### Texts -/

/-- The lines of an output, each ended by a line break. -/
def unlines (lines : List String) : String :=
  String.join (lines.map (· ++ "\n"))

/-- How to use the program. -/
def usage : String :=
  unlines [
    "Usage: permit [-v] <command> [options]",
    "",
    "Commands:",
    "  check <rule>...                            Compile rules and print the tree",
    "  match --rule <rule>... <path>... [--trace] Decide paths against rules",
    "  filter <config> [key=value...]             Filter pairs through a params config",
    "  help                                       Show this help",
    "",
    "Options:",
    "  -v, --verbose                              Debug logging on stderr"]

/-- What a log entry that ends with the text leaves on stderr besides its own line. -/
def overhang (text : String) : String :=
  match text.toList.dropWhile (· ≠ '\n') with
  | [] => ""
  | _ :: rest => String.ofList rest ++ "\n"

/-- What a command has to say: texts that log entries end with, and its lines or its complaint. -/
structure Statement where
  logged : List String
  result : Except String (List String)

/-- A command that logs nothing of which the end is not known. -/
def Statement.ofResult (result : Except String (List String)) : Statement := ⟨[], result⟩

/-! ### check -/

/-- The rules, or the sentence that a person reads about them. -/
def compileRules (rules : List String) : Except String RuleSet :=
  (RuleSet.compile rules).mapError fun e => "rules invalid: " ++ e.message

/-- The lines that `check` prints. -/
def check (rules : List String) : Except String (List String) := do
  if rules.isEmpty then throw "check requires at least one rule"
  let set ← compileRules rules
  return [set.render, "depth: " ++ toString set.depth]

/-! ### match -/

/-- What `match` is asked. -/
structure MatchRequest where
  rules : List String
  paths : List String
  trace : Bool
deriving DecidableEq

namespace MatchRequest

/-- The request with more arguments read. -/
def read : MatchRequest → List String → Except String MatchRequest
  | request, [] => .ok request
  | request, argument :: arguments =>
    if argument = "--rule" ∨ argument = "-r" then
      match arguments with
      | [] => .error "--rule requires a value"
      | rule :: arguments => read { request with rules := request.rules ++ [rule] } arguments
    else if argument = "--trace" then read { request with trace := true } arguments
    else if ['-', '-'].isPrefixOf argument.toList then
      .error ("unexpected argument \"" ++ argument ++ "\"")
    else read { request with paths := request.paths ++ [argument] } arguments

/-- The request that the arguments make. -/
def ofArguments (arguments : List String) : Except String MatchRequest := do
  let request ← read ⟨[], [], false⟩ arguments
  if request.rules.isEmpty then throw "match requires at least one --rule"
  if request.paths.isEmpty then throw "match requires at least one path"
  return request

end MatchRequest

/-- The lines that `match` prints. -/
def decide (arguments : List String) : Except String (List String) := do
  let request ← MatchRequest.ofArguments arguments
  let set ← compileRules request.rules
  return request.paths.map fun path =>
    if request.trace then (set.report path).outline.pretty
    else (if set.permits path then "permit" else "deny") ++ "\t" ++ path

/-! ### filter -/

/-- The last part of a path that names something. -/
def fileName? (path : String) : Option (List Char) :=
  (pathNames path).getLast?.filter (· ≠ ['.', '.'])

/-- The file name ends in a point and `json`, in any case, after at least one character. -/
def isJson (path : String) : Bool :=
  match (fileName? path).bind (Cut.last? fun c => if c = '.' then some () else none) with
  | some (_ :: _, _, extension) => extension.map Char.toLower == ['j', 's', 'o', 'n']
  | _ => false

/-- The configuration in the file at `path`. -/
def loadConfig (files : Files) (path : String) : Except Params.Error Config :=
  match files path with
  | .error e => .error (.invalidConfig ("failed to read \"" ++ path ++ "\": " ++ e.message))
  | .ok text =>
    if isJson path then
      (Config.ofJson text).mapError fun e => .invalidConfig ("JSON parse error: " ++ e.message)
    else (Config.ofYaml text).mapError fun e => .invalidConfig ("YAML parse error: " ++ e.message)

/-- The texts that the log entries about a filtering end with: the root that is missing, or where
more is logged the keys that are dropped. -/
def filterLog (verbose : Bool) (params : Params) (values : Values) : List String :=
  match params.filter values with
  | .error (.missingRequiredKey root) => [root]
  | .error _ => []
  | .ok _ => if verbose then params.dropped values else []

/-- The filter in the configuration file at `path`, and the values that pairs write. -/
def filterInput (files : Files) (path : String) (pairs : List String) :
    Except String (Params × Values) := do
  let config ← (loadConfig files path).mapError Params.Error.message
  let params ← (Params.ofConfig config).mapError fun e => "config invalid: " ++ e.message
  let values ← (Pairs.ofArguments pairs).mapError fun pair =>
    "invalid pair \"" ++ pair ++ "\", expected key=value"
  return (params, values)

/-- What `filter` has to say. -/
def filter (verbose : Bool) (files : Files) : List String → Statement
  | [] => .ofResult (.error "filter requires a config file path")
  | path :: pairs =>
    match filterInput files path pairs with
    | .error e => .ofResult (.error e)
    | .ok (params, values) =>
      ⟨filterLog verbose params values,
        ((params.filter values).map Values.lines).mapError Params.Error.message⟩

/-! ### The program -/

/-- The argument asks for more to be logged. -/
def isVerbose (argument : String) : Bool := argument == "-v" || argument == "--verbose"

/-- The arguments but for those that ask for more to be logged. -/
def dropVerbose (arguments : List String) : List String :=
  arguments.filter (!isVerbose ·)

/-- The path of the file that the arguments ask to read, if they do. -/
def configPath? (arguments : List String) : Option String :=
  match dropVerbose arguments with
  | "filter" :: path :: _ => some path
  | _ => none

/-- The outcome of a command that prints lines or fails. -/
def finish (statement : Statement) : Outcome :=
  let overhangs := String.join (statement.logged.map overhang)
  match statement.result with
  | .ok lines => ⟨0, unlines lines, overhangs⟩
  | .error e => ⟨1, "", overhangs ++ "error: " ++ e ++ "\n"⟩

/-- The program, run with the given arguments. -/
def run (files : Files) (arguments : List String) : Outcome :=
  match dropVerbose arguments with
  | [] => ⟨1, "", usage⟩
  | command :: rest =>
    if command = "check" then finish (.ofResult (check rest))
    else if command = "match" then finish (.ofResult (decide rest))
    else if command = "filter" then finish (filter (arguments.any isVerbose) files rest)
    else if command = "--help" ∨ command = "-h" ∨ command = "help" then ⟨0, "", usage⟩
    else ⟨1, "", "error: unknown command \"" ++ command ++ "\"\n" ++ usage⟩

end Allowlist.Command
