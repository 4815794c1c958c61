import Allowlist.Keyed
import Allowlist.Yaml.Lexer
import Allowlist.Yaml.Node

/-!
# Yaml.Document — documents from tokens

A text holds any number of documents; all but the first start with a mark.  Each is read token by
token.  When a token does not fit, or the tokens end in a fault, the tree gets a broken part and
nothing more is read.
-/

namespace Allowlist.Yaml

/-- The tree of a document, and the fault that follows it, if the text makes no sense there. -/
structure Document where
  root : Node
  fault : Option SyntaxError

/-- The tokens left to read, the labels of the names of anchors, and the meanings of handles. -/
structure Builder where
  tokens : List Token
  labels : List (String × Nat)
  handles : List (String × String)

abbrev Build := StateM Builder

namespace Build

/-! ### Looking and moving -/

/-- The next token; after the last one there are only ends. -/
def peekToken : Build Token := do
  return (← get).tokens.headD ⟨.start, .textEnd⟩

def peek : Build Token.Kind := do
  return (← peekToken).kind

/-- The place of the next token. -/
def here : Build Mark := do
  return (← peekToken).mark

/-- Passes over one token. -/
def advance : Build Unit :=
  modify fun builder => { builder with tokens := builder.tokens.tail }

/-- Gives up: a part is broken, and there is nothing more to read. -/
def stop (cause : SyntaxError) : Build Node := do
  modify fun builder => { builder with tokens := [] }
  return .broken cause

/-- Gives up because the next token does not fit, or because there is none that makes sense. -/
def refuse (problem : Problem) (during : Option (Activity × Mark)) : Build Node := do
  match ← peekToken with
  | ⟨_, .fault cause⟩ => stop cause
  | token => stop ⟨problem, token.mark, during⟩

/-- The empty part in front of the next token. -/
def emptyHere : Build Node := do
  match ← peekToken with
  | ⟨_, .fault cause⟩ => stop cause
  | token => return .empty token.mark

/-! ### Properties -/

def anchor? : Build (Option String) := do
  match ← peek with
  | .anchor name => advance; return some name
  | _ => return none

/-- The handle and suffix of a tag, and its place. -/
def tag? : Build (Option (Mark × String × String)) := do
  match ← peekToken with
  | ⟨mark, .tag handle suffix⟩ => advance; return some (mark, handle, suffix)
  | _ => return none

/-- An anchor and a tag, in either order. -/
def properties : Build (Option String × Option (Mark × String × String)) := do
  match ← anchor? with
  | some name => return (some name, ← tag?)
  | none =>
    match ← tag? with
    | some tag => return (← anchor?, some tag)
    | none => return (none, none)

/-- What a handle and a suffix say, if the handle is known. -/
def tagName? (handle suffix : String) : Build (Option String) := do
  if handle = "" then return some suffix
  else return ((← get).handles.lookup handle).map (· ++ suffix)

/-- The label that the name gets.  It is the number of names so far; so a name that is used again
shares its label with the next new one. -/
def addLabel : Option String → Build (Option Nat)
  | none => return none
  | some name => do
    let labels := (← get).labels
    modify fun builder => { builder with labels := Keyed.insert name labels.length labels }
    return some labels.length

/-! ### Parts -/

/-- Stops in place of the items of a list, unless it ends in front of the next token. -/
def endItems : Build (List Node) := do
  match ← peek with
  | .fault cause => return [← stop cause]
  | _ => return []

/-- Stops in place of an entry of a mapping. -/
def refuseEntry (problem : Problem) (activity : Activity) (start : Mark) :
    Build (List (Node × Node)) := do
  let broken ← refuse problem (some (activity, start))
  return [(broken, broken)]

mutual
/-- A part, in a block or inside brackets.  With `flush` it may be a list whose dashes stand in the
column of the key before it. -/
def node : (fuel : Nat) → (block flush : Bool) → Build Node
  | 0, _, _ => refuse .expectedContent none
  | fuel + 1, block, flush => do
    let mark ← here
    if let .reference name := ← peek then
      advance
      match (← get).labels.lookup name with
      | some label => return .reference mark label
      | none => return ← stop ⟨.unknownAnchor, mark, none⟩
    let (anchor, tag) ← properties
    if let .fault cause := ← peek then return ← stop cause
    let tagName ← match tag with
      | none => pure none
      | some (tagMark, handle, suffix) =>
        match ← tagName? handle suffix with
        | some name => pure (some name)
        | none => return ← stop ⟨.undefinedHandle, tagMark, some (.part, mark)⟩
    let start : Build Start := return ⟨mark, ← addLabel anchor⟩
    let token ← peekToken
    match token.kind with
    | .scalar style text =>
      advance
      return .scalar (← start) tagName style text
    | .flowListStart =>
      advance
      return .list (← start) (← flowItems token.mark fuel true)
    | .flowMappingStart =>
      advance
      return .mapping (← start) (← flowEntries token.mark fuel true)
    | kind =>
      if flush && kind == .item then return .list (← start) (← flushItems fuel)
      else if block && kind == .blockListStart then
        advance
        return .list (← start) (← blockItems token.mark fuel)
      else if block && kind == .blockMappingStart then
        advance
        return .mapping (← start) (← blockEntries token.mark fuel)
      else if anchor.isSome || tag.isSome then return .scalar (← start) tagName .plain ""
      else refuse .expectedContent (some (if block then .blockPart else .flowPart, mark))

/-- A part, or an empty one at `mark` if one of the given tokens comes instead. -/
def nodeOr : (fuel : Nat) → (block flush : Bool) → (stops : List Token.Kind) → Mark → Build Node
  | 0, _, _, _, _ => refuse .expectedContent none
  | fuel + 1, block, flush, stops, mark => do
    if stops.contains (← peek) then return .empty mark else node fuel block flush

/-- The value of an entry inside brackets, empty without a colon or before a given token. -/
def flowValue : (fuel : Nat) → (stops : List Token.Kind) → Build Node
  | 0, _ => refuse .expectedContent none
  | fuel + 1, stops => do
    if (← peek) != .value then return ← emptyHere
    advance
    nodeOr fuel false false stops (← here)

/-- The items of the list whose bracket stands at `start`, and its closing bracket.  A key with a
value is a mapping of its own; where the key is empty, the token in its place is passed over. -/
def flowItems (start : Mark) : (fuel : Nat) → (first : Bool) → Build (List Node)
  | 0, _ => return [← refuse .expectedListEnd none]
  | fuel + 1, first => do
    if !first && (← peek) == .comma then advance
    else if !first && (← peek) != .flowListEnd then
      return [← refuse .expectedListEnd (some (.flowList, start))]
    let token ← peekToken
    match token.kind with
    | .flowListEnd => advance; return []
    | .key =>
      advance
      let stops := [.comma, .flowListEnd]
      let next ← peekToken
      let key ←
        if (.value :: stops).contains next.kind then do
          advance
          pure (Node.empty (next.mark.right 1))
        else node fuel false false
      let value ← flowValue fuel stops
      let pair := Node.mapping ⟨token.mark, none⟩ [(key, value)]
      return pair :: (← flowItems start fuel false)
    | _ =>
      let item ← node fuel false false
      return item :: (← flowItems start fuel false)

/-- The entries of the mapping whose brace stands at `start`, and its closing brace.  A part may
stand for a key without a value. -/
def flowEntries (start : Mark) : (fuel : Nat) → (first : Bool) → Build (List (Node × Node))
  | 0, _ => refuseEntry .expectedMappingEnd .flowMapping start
  | fuel + 1, first => do
    if !first && (← peek) == .comma then advance
    else if !first && (← peek) != .flowMappingEnd then
      return ← refuseEntry .expectedMappingEnd .flowMapping start
    match ← peek with
    | .flowMappingEnd => advance; return []
    | .key =>
      advance
      let stops := [.comma, .flowMappingEnd]
      let key ← nodeOr fuel false false (.value :: stops) (← here)
      let value ← flowValue fuel stops
      return (key, value) :: (← flowEntries start fuel false)
    | _ =>
      let key ← node fuel false false
      let value ← emptyHere
      return (key, value) :: (← flowEntries start fuel false)

/-- The items of the list whose first dash stands at `start`, and the end of its block. -/
def blockItems (start : Mark) : (fuel : Nat) → Build (List Node)
  | 0 => return [← refuse .expectedItem none]
  | fuel + 1 => do
    let token ← peekToken
    match token.kind with
    | .item =>
      advance
      let item ← nodeOr fuel true false [.item, .blockEnd] (token.mark.right 1)
      return item :: (← blockItems start fuel)
    | .blockEnd => advance; return []
    | _ => return [← refuse .expectedItem (some (.blockList, start))]

/-- The items of a list whose dashes stand in the column of the key before it. -/
def flushItems : (fuel : Nat) → Build (List Node)
  | 0 => endItems
  | fuel + 1 => do
    let token ← peekToken
    match token.kind with
    | .item =>
      advance
      let item ← nodeOr fuel true false [.item, .key, .value, .blockEnd] (token.mark.right 1)
      return item :: (← flushItems fuel)
    | _ => endItems

/-- The entries of the mapping whose first key stands at `start`, and the end of its block. -/
def blockEntries (start : Mark) : (fuel : Nat) → Build (List (Node × Node))
  | 0 => refuseEntry .expectedKey .blockMapping start
  | fuel + 1 => do
    let token ← peekToken
    let stops := [.key, .value, .blockEnd]
    match token.kind with
    | .key =>
      advance
      let key ← nodeOr fuel true true stops (token.mark.right 1)
      let next ← peekToken
      let value ←
        if next.kind == .value then do
          advance
          nodeOr fuel true true stops (next.mark.right 1)
        else emptyHere
      return (key, value) :: (← blockEntries start fuel)
    | .blockEnd => advance; return []
    | _ => refuseEntry .expectedKey .blockMapping start
end

/-! ### Documents -/

/-- The handles that need no directive. -/
def standardHandles : List (String × String) :=
  [("!", "!"), ("!!", "tag:yaml.org,2002:")]

/-- Reads the directives in front of a document, after those that gave the version and `handles`. -/
def directives : (fuel : Nat) → (version : Bool) → (handles : List (String × String)) →
    Build (Except SyntaxError (List (String × String)))
  | 0, _, handles => return .ok handles
  | fuel + 1, version, handles => do
    match ← peekToken with
    | ⟨mark, .version major minor⟩ =>
      if version then return .error ⟨.repeatedVersion, mark, none⟩
      if major ≠ 1 ∨ minor ≠ 1 ∧ minor ≠ 2 then return .error ⟨.incompatibleVersion, mark, none⟩
      advance
      directives fuel true handles
    | ⟨mark, .handle name start⟩ =>
      if (handles.lookup name).isSome then return .error ⟨.repeatedHandle, mark, none⟩
      advance
      directives fuel version (handles ++ [(name, start)])
    | _ => return .ok handles

/-- The content of a document, up to its end mark if it has one. -/
def content (fuel : Nat) (handles : List (String × String)) (marked : Bool) : Build Document := do
  modify fun builder => { builder with labels := [], handles := handles ++ standardHandles }
  let isEmpty := match ← peek with
    | .version _ _ | .handle _ _ | .documentStart | .documentEnd | .textEnd => marked
    | _ => false
  let root ← if isEmpty then emptyHere else node fuel true false
  match ← peek with
  | .fault cause => return ⟨root, some cause⟩
  | .documentEnd => advance; return ⟨root, none⟩
  | _ => return ⟨root, none⟩

/-- A document with its directives and its start mark. -/
def markedDocument (fuel : Nat) : Build Document := do
  match ← directives fuel false [] with
  | .error cause => return ⟨← stop cause, none⟩
  | .ok handles =>
    if (← peek) == .documentStart then
      advance
      content fuel handles true
    else return ⟨← refuse .expectedDocumentStart none, none⟩

/-- Passes over marks that end a document. -/
def skipEnds : (fuel : Nat) → Build Unit
  | 0 => return ()
  | fuel + 1 => do
    if (← peek) == .documentEnd then
      advance
      skipEnds fuel

/-- The documents that are left; the first one of a text needs no mark. -/
def documents : (fuel : Nat) → (first : Bool) → Build (List Document)
  | 0, _ => return []
  | fuel + 1, first => do
    if !first then skipEnds fuel
    match ← peek with
    | .textEnd => return []
    | .version _ _ | .handle _ _ | .documentStart =>
      let document ← markedDocument fuel
      return document :: (← documents fuel false)
    | _ =>
      let document ← if first then content fuel [] false else markedDocument fuel
      return document :: (← documents fuel false)

end Build

/-- The documents of a text.  A text without any stands for an empty one. -/
def Document.ofText (text : String) : List Document :=
  let tokens := Token.ofText text
  match Id.run ((Build.documents (4 * tokens.length + 4) true).run ⟨tokens, [], []⟩) with
  | ([], _) => [⟨.empty .start, none⟩]
  | (documents, _) => documents

end Allowlist.Yaml
