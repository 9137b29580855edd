import CostAnalysis.Settings.Document
import CostAnalysis.Settings.Yaml.Scan

/-!
# Reading YAML

The tokens of a text are read into one document.  A node is a scalar, a list or
a table; it may have a tag and an anchor, by which later nodes repeat it.
-/

namespace CostAnalysis.Yaml

/-- What is left of the tokens, with what is known from those before. -/
structure Input where
  tokens : List Token
  /-- What the handles of tags stand for. -/
  handles : List (List Char × List Char) := []
  /-- The nodes that have an anchor, the last one first. -/
  anchors : List (List Char × Document) := []

/-- A reader of tokens. -/
abbrev Reader := StateT Input Option

namespace Reader

/-- The next token. -/
def peek : Reader (Option Token) :=
  return (← get).tokens.head?

/-- Passes the next token. -/
def skip : Reader Unit :=
  modify fun input => { input with tokens := input.tokens.drop 1 }

/-- Takes the next token. -/
def next : Reader (Option Token) := do
  let t ← peek
  skip
  return t

/-- The scalar that is not written. -/
def nothing : Document :=
  .plain ""

/-- Reads a node unless one of the given tokens is next, before which it is not
written. -/
def orNothing (stops : List Token) (node : Reader Document) : Reader Document := do
  match ← peek with
  | some t => if stops.contains t then pure nothing else node
  | none => node

/-- Reads the value of a key; the colon before it may be missing. -/
def value (stops : List Token) (node : Reader Document) : Reader Document := do
  if (← peek) == some .value then
    skip
    orNothing stops node
  else return nothing

/-! ## Lists and tables by indentation -/

/-- The items of a list, up to the end of its block. -/
def items (node : Reader Document) : Nat → Reader (List Document)
  | 0 => failure
  | fuel + 1 => do
    match ← next with
    | some .item =>
      let d ← orNothing [.item, .blockEnd] node
      return d :: (← items node fuel)
    | some .blockEnd => return []
    | _ => failure

/-- The items of a list that is not indented more than the key before it. -/
def flushItems (node : Reader Document) : Nat → Reader (List Document)
  | 0 => failure
  | fuel + 1 => do
    if (← peek) == some .item then
      skip
      let d ← orNothing [.item, .key, .value, .blockEnd] node
      return d :: (← flushItems node fuel)
    else return []

/-- The entries of a table, up to the end of its block. -/
def entries (node : Reader Document) : Nat → Reader (List (Document × Document))
  | 0 => failure
  | fuel + 1 => do
    match ← next with
    | some .key =>
      let k ← orNothing [.key, .value, .blockEnd] node
      let v ← value [.key, .value, .blockEnd] node
      return (k, v) :: (← entries node fuel)
    | some .blockEnd => return []
    | _ => failure

/-! ## Lists and tables in brackets -/

/-- Takes the comma that divides items, which the first one does not have. -/
def separator (first : Bool) : Reader Unit := do
  if !first then
    match ← next with
    | some .comma => return ()
    | _ => failure

/-- A table of one entry, as an item of a list in brackets. -/
def pair (node : Reader Document) : Reader (Document × Document) := do
  let stops := [Token.value, .comma, .closeBracket]
  let stopped := (← peek).any stops.contains
  let k ← if stopped then skip *> pure nothing else node
  let v ← value [.comma, .closeBracket] node
  return (k, v)

/-- The fields of a table.  A key that is no scalar has no text. -/
def fields? (entries : List (Document × Document)) : Option (List (String × Document)) :=
  entries.mapM fun (k, v) => k.asString?.map fun name => (name, v)

/-- A table.  With keys that are no scalars it can stand nowhere where a value
is asked for. -/
def table (entries : List (Document × Document)) : Document :=
  match fields? entries with
  | some fields => .table fields
  | none => .null

/-- The items of a list in brackets, up to the closing one. -/
def flowItems (node : Reader Document) : Nat → Bool → Reader (List Document)
  | 0, _ => failure
  | fuel + 1, first => do
    if (← peek) == some .closeBracket then
      skip
      return []
    else
      separator first
      match ← peek with
      | some .closeBracket =>
        skip
        return []
      | some .key =>
        skip
        let entry ← pair node
        return table [entry] :: (← flowItems node fuel false)
      | _ =>
        let d ← node
        return d :: (← flowItems node fuel false)

/-- The entries of a table in braces, up to the closing one. -/
def flowEntries (node : Reader Document) : Nat → Bool → Reader (List (Document × Document))
  | 0, _ => failure
  | fuel + 1, first => do
    if (← peek) == some .closeBrace then
      skip
      return []
    else
      separator first
      match ← peek with
      | some .closeBrace =>
        skip
        return []
      | some .key =>
        skip
        let k ← orNothing [.value, .comma, .closeBrace] node
        let v ← value [.comma, .closeBrace] node
        return (k, v) :: (← flowEntries node fuel false)
      | _ =>
        let k ← node
        return (k, nothing) :: (← flowEntries node fuel false)

/-! ## Nodes -/

/-- What may stand before a node. -/
structure Properties where
  anchor? : Option (List Char) := none
  tag? : Option (List Char) := none

/-- The anchor at the front, if there is one. -/
def anchor? : Reader (Option (List Char)) := do
  match ← peek with
  | some (.anchor name) =>
    skip
    return some name
  | _ => return none

/-- The tag at the front, if there is one, with what its handle stands for. -/
def tag? : Reader (Option (List Char)) := do
  match ← peek with
  | some (.tag [] suffix) =>
    skip
    return some suffix
  | some (.tag handle suffix) =>
    skip
    match (← get).handles.lookup handle with
    | some meaning => return some (meaning ++ suffix)
    | none => failure
  | _ => return none

/-- An anchor and a tag in either order, each of which may be missing. -/
def properties : Reader Properties := do
  match ← anchor? with
  | some name => return { anchor? := some name, tag? := ← tag? }
  | none =>
    match ← tag? with
    | some tag => return { anchor? := ← anchor?, tag? := some tag }
    | none => return {}

/-- A document with a tag.  Only a tag of the document's own, which begins with
an exclamation mark, is the name of a variant. -/
def withTag (tag? : Option (List Char)) (d : Document) : Document :=
  match tag? with
  | some ['!'] => .tagged "!" d
  | some ('!' :: name) => .tagged (String.ofList name) d
  | _ => d

/-- Remembers a document under an anchor. -/
def remember (anchor? : Option (List Char)) (d : Document) : Reader Unit :=
  match anchor? with
  | some name => modify fun input => { input with anchors := (name, d) :: input.anchors }
  | none => return ()

/-- The places of a node. -/
inductive Place where
  /-- Inside of brackets. -/
  | flow
  /-- An item of a list, or the whole document. -/
  | block
  /-- A key or a value of a table, where a list need not be indented more than
  the table. -/
  | entry
deriving DecidableEq

/-- The contents of a node, where `node` reads the nodes inside; none if a token
is next that begins no node. -/
def contents? (node : Place → Reader Document) (place : Place) : Reader (Option Document) := do
  let fuel := (← get).tokens.length + 1
  match ← peek with
  | some .item =>
    if place == .entry then return some (.list (← flushItems (node .block) fuel) true)
    else return none
  | some (.scalar isPlain text) =>
    skip
    let text := String.ofList text
    return some (if isPlain then .plain text else .str text)
  | some .openBracket =>
    skip
    return some (.list (← flowItems (node .flow) fuel true) true)
  | some .openBrace =>
    skip
    return some (table (← flowEntries (node .flow) fuel true))
  | some .listStart =>
    if place == .flow then return none
    else
      skip
      return some (.list (← items (node .block) fuel) true)
  | some .tableStart =>
    if place == .flow then return none
    else
      skip
      return some (table (← entries (node .entry) fuel))
  | _ => return none

/-- Reads a node with at most `depth` nodes inside each other.  Only with an
anchor or a tag may it have no contents. -/
def node : Nat → Place → Reader Document
  | 0, _ => failure
  | depth + 1, place => do
    match ← peek with
    | some (.reference name) =>
      skip
      match (← get).anchors.lookup name with
      | some d => return d
      | none => failure
    | _ =>
      let p ← properties
      remember p.anchor? .null
      let contents ← match ← contents? (node depth) place with
        | some d => pure d
        | none => if p.anchor?.isSome || p.tag?.isSome then pure nothing else failure
      let d := withTag p.tag? contents
      remember p.anchor? d
      return d

/-! ## Documents -/

/-- The handles that every document has. -/
def defaultHandles : List (List Char × List Char) :=
  [(['!'], ['!']), (['!', '!'], "tag:yaml.org,2002:".toList)]

/-- The directives before a document: a version at most once, and handles with
different names. -/
def directives : Nat → Bool → Reader Unit
  | 0, _ => failure
  | fuel + 1, versioned => do
    match ← peek with
    | some (.version major minor) =>
      if versioned || major != 1 || (minor != 1 && minor != 2) then failure
      else
        skip
        directives fuel true
    | some (.handle name meaning) =>
      let input ← get
      if (input.handles.lookup name).isSome then failure
      else
        skip
        modify fun input => { input with handles := (name, meaning) :: input.handles }
        directives fuel versioned
    | _ => return ()

/-- What follows the mark at the start of a document: its node, which may be
missing. -/
def markedNode (depth : Nat) : Reader Document := do
  match ← next with
  | some .documentStart =>
    match ← peek with
    | some (.version ..) | some (.handle ..) | some .documentStart | some .documentEnd | none =>
      return nothing
    | _ => node depth .block
  | _ => failure

/-- Reads a document.  After directives its start has a mark. -/
def root : Reader Document := do
  let depth := (← get).tokens.length + 1
  let first ← peek
  directives depth false
  modify fun input => { input with handles := input.handles ++ defaultHandles }
  match first with
  | some (.version ..) | some (.handle ..) | some .documentStart => markedNode depth
  | some _ => node depth .block
  | none => return nothing

/-- Reads the whole of the tokens as one document. -/
def document : Reader Document := do
  let d ← root
  if (← get).tokens.all (· == .documentEnd) then return d else failure

end Reader

/-- Reads a document. -/
def read? (text : String) : Option Document := do
  let tokens ← Token.ofChars? text.toList
  let (d, _) ← Reader.document.run { tokens }
  return d

end CostAnalysis.Yaml
