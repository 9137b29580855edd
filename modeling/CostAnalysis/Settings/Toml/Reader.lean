import CostAnalysis.Settings.Toml.Moment
import CostAnalysis.Settings.Toml.Number
import CostAnalysis.Settings.Toml.Quoted
import CostAnalysis.Settings.Toml.Table

/-!
# Reading TOML

A document is a sequence of lines.  A header opens a table, which the lines
after it fill with keys and values; a value may itself go over several lines.
-/

namespace CostAnalysis.Toml

/-- Paths of keys and nested values have fewer parts than this. -/
def nestingLimit : Nat :=
  80

/-! ## Keys -/

/-- Characters of keys without quotes. -/
def isBareKeyChar (c : Char) : Bool :=
  ('a' ≤ c && c ≤ 'z') || ('A' ≤ c && c ≤ 'Z') || ('0' ≤ c && c ≤ '9') || c == '_' || c == '-'

/-- A key. -/
def key? : Reader String := fun text =>
  match shortString? text with
  | some (key, rest) => some (String.ofList key, rest)
  | none =>
    let key := text.takeWhile isBareKeyChar
    if key.isEmpty then none else some (String.ofList key, text.dropWhile isBareKeyChar)

/-- At most `fuel` keys divided by dots; blanks may stand around each of
them. -/
def keys? : Nat → Reader (List String)
  | 0, _ => none
  | fuel + 1, text =>
    match key? (skipSpaces text) with
    | none => none
    | some (key, rest) =>
      match skipSpaces rest with
      | '.' :: more => prepend key (keys? fuel more)
      | rest => some ([key], rest)

/-- A path of keys. -/
def keyPath? : Reader (List String) :=
  keys? (nestingLimit - 1)

/-! ## Values -/

/-- A date or a time.  It is a table of its own kind, which has no setting. -/
def moment? : Reader Document := fun text =>
  (afterMoment? text).map fun rest =>
    let written := text.take (text.length - rest.length)
    (.table [("datetime", .str (String.ofList written))], rest)

/-- A value that is no list and no table. -/
def scalar? : Reader Document := fun text =>
  match string? text with
  | some (cs, rest) => some (.str (String.ofList cs), rest)
  | none =>
    match Text.afterStart "true".toList text, Text.afterStart "false".toList text with
    | some rest, _ => some (.bool true, rest)
    | none, some rest => some (.bool false, rest)
    | none, none => (moment? text).or (number? text)

/-- The rest of a list after its opening bracket.  The fuel exceeds the length
of the text. -/
def items? (element? : Reader α) : Nat → Reader (List α)
  | 0, _ => none
  | fuel + 1, text =>
    match skipLines text with
    | ']' :: rest => some ([], rest)
    | start =>
      match element? start with
      | none => none
      | some (x, rest) =>
        match skipLines rest with
        | ',' :: rest => prepend x (items? element? fuel rest)
        | ']' :: rest => some ([x], rest)
        | _ => none

/-- A key, or a path of keys, and its value. -/
def entry? (element? : Reader α) : Reader (List String × α) := fun text =>
  match keyPath? text with
  | some (path, '=' :: rest) =>
    (element? (skipSpaces rest)).map fun (x, rest) => ((path, x), rest)
  | _ => none

/-- The entries of a table on one line, up to its closing brace.  The fuel
exceeds the length of the text. -/
def entries? (element? : Reader α) : Nat → Reader (List (List String × α))
  | 0, _ => none
  | fuel + 1, text =>
    match entry? element? text with
    | none => none
    | some (entry, rest) =>
      match skipSpaces rest with
      | ',' :: rest => prepend entry (entries? element? fuel rest)
      | '\x7d' :: rest => some ([entry], rest)
      | _ => none

/-- The rest of a table on one line after its opening brace. -/
def inlineTable? (element? : Reader Document) : Reader Document := fun text =>
  match skipSpaces text with
  | '\x7d' :: rest => some (.table [], rest)
  | _ => do
    let (entries, rest) ← entries? element? (text.length + 1) text
    let fields ← entries.foldlM (fun (fields : Fields) (path, v) => fields.insert? path v) []
    return (fields.toDocument, rest)

/-- A value with at most `depth` lists and tables inside each other. -/
def value? : Nat → Reader Document
  | 0 => scalar?
  | depth + 1 => fun text =>
    match text with
    | '[' :: rest =>
      (items? (value? depth) (rest.length + 1) rest).map fun (items, rest) =>
        (.list items false, rest)
    | '\x7b' :: rest => inlineTable? (value? depth) rest
    | _ => scalar? text

/-! ## Documents -/

/-- A document in the making: its tables, and the path of the one that is being
filled. -/
structure Draft where
  fields : Fields := []
  current : List String := []

namespace Draft

/-- Takes a header into account. -/
def header? (draft : Draft) : Reader Draft
  | '[' :: rest =>
    match keyPath? rest with
    | some (path, ']' :: ']' :: rest) =>
      (draft.fields.appendTable? path).map fun fields => ({ fields, current := path }, rest)
    | _ => none
  | text =>
    match keyPath? text with
    | some (path, ']' :: rest) =>
      (draft.fields.openTable? path).map fun fields => ({ fields, current := path }, rest)
    | _ => none

/-- Takes a key with its value into account. -/
def entry? (draft : Draft) : Reader Draft := fun text => do
  let ((path, v), rest) ← Toml.entry? (value? (nestingLimit - 1)) text
  let fields ← draft.fields.change? .header (fun inner => inner.insert? path v) draft.current
  return ({ draft with fields }, rest)

/-- Takes what stands at the front of a line into account; a line may hold
nothing. -/
def line? (draft : Draft) : Reader Draft := fun text =>
  match text with
  | '[' :: rest => draft.header? rest
  | c :: _ => if c == '#' || c == '\n' || c == '\r' then some (draft, text) else draft.entry? text
  | [] => some (draft, [])

/-- Takes at most `fuel` lines into account. -/
def lines? : Nat → Draft → List Char → Option Draft
  | 0, _, _ => none
  | fuel + 1, draft, text =>
    match skipSpaces text with
    | [] => some draft
    | start =>
      match draft.line? start with
      | none => none
      | some (draft, rest) =>
        match afterLine? rest with
        | none => none
        | some rest => lines? fuel draft rest

end Draft

/-- The mark of the order of bytes, which may stand before a text. -/
def byteOrderMark : Char :=
  Char.ofNat 0xFEFF

/-- Reads a document. -/
def read? (text : String) : Option Document :=
  let cs := text.toList
  let body := if cs.head? == some byteOrderMark then cs.drop 1 else cs
  (Draft.lines? (body.length + 1) {} body).map fun draft => draft.fields.toDocument

end CostAnalysis.Toml
