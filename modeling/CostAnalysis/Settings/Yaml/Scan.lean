import CostAnalysis.Settings.Yaml.Scalar
import CostAnalysis.Settings.Yaml.Token

/-!
# From characters to tokens

A key is known as one only by the colon after it.  So the scan remembers where a
key may have begun, and puts the tokens for it there once the colon comes.  Such
a place is given up at the end of its line.  Outside of brackets, the columns at
which lists and tables began say where they end.
-/

namespace CostAnalysis.Yaml

/-- A place where a key may have begun. -/
structure PossibleKey where
  /-- Whether nothing but a key may stand there. -/
  required : Bool
  /-- The number of tokens before it. -/
  position : Nat
  place : Cursor

/-- The greatest distance from the beginning of a key to its colon. -/
def keyLengthLimit : Nat :=
  1024

/-- Whether a key that began at a place may still go on at another one. -/
def PossibleKey.reaches (key : PossibleKey) (c : Cursor) : Bool :=
  key.place.line == c.line && c.index ≤ key.place.index + keyLengthLimit

/-- The state of a scan. -/
structure Scan where
  cursor : Cursor
  /-- The tokens so far, the last one first. -/
  tokens : List Token := []
  /-- The columns of the lists and tables that are open by indentation, the
  inmost one first. -/
  indents : List Nat := []
  /-- Whether a key may begin here. -/
  keyAllowed : Bool := true
  /-- Where a key may have begun: outside of all brackets, and inside of each
  open bracket, the inmost one first. -/
  keys : List (Option PossibleKey) := [none]

namespace Scan

/-- Whether a bracket is open. -/
def inFlow (s : Scan) : Bool :=
  1 < s.keys.length

/-- Adds a token that takes up some characters. -/
def emitAt (t : Token) (c : Cursor) (s : Scan) : Scan :=
  { s with tokens := t :: s.tokens, cursor := c }

/-- Adds a token where there were `position` tokens. -/
def insert (t : Token) (position : Nat) (s : Scan) : Scan :=
  let later := s.tokens.length - position
  { s with tokens := s.tokens.take later ++ t :: s.tokens.drop later }

/-! ## Keys -/

/-- Gives up the place where a key may have begun. -/
def dropKey? (s : Scan) : Option Scan :=
  match s.keys with
  | some key :: outer => if key.required then none else some { s with keys := none :: outer }
  | _ => some s

/-- Remembers that a key may begin here.  It has to, outside of brackets, at the
column of the open table. -/
def saveKey? (s : Scan) : Option Scan :=
  if s.keyAllowed then
    let key : PossibleKey :=
      { required := !s.inFlow && s.indents.head? == some s.cursor.column
        position := s.tokens.length
        place := s.cursor }
    s.dropKey?.map fun s => { s with keys := some key :: s.keys.drop 1 }
  else some s

/-- Gives up all places from which no key reaches the present one. -/
def dropStaleKeys? (s : Scan) : Option Scan :=
  let isStale (key : PossibleKey) : Bool := !key.reaches s.cursor
  if s.keys.any fun key? => key?.any fun key => key.required && isStale key then none
  else some { s with keys := s.keys.map fun key? => key?.filter fun key => !isStale key }

/-- Sets whether a key may begin after the next token. -/
def allowKey (allowed : Bool) (s : Scan) : Scan :=
  { s with keyAllowed := allowed }

/-! ## Indentation -/

/-- Opens a list or a table at a column, unless one is open there; its token is
put where there were `position` tokens. -/
def openBlock (t : Token) (column position : Nat) (s : Scan) : Scan :=
  if !s.inFlow && s.indents.head?.all (· < column) then
    { s.insert t position with indents := column :: s.indents }
  else s

/-- Closes the lists and tables that are open by indentation and for which
`ends` holds. -/
def closeBlocks (ends : Nat → Bool) (s : Scan) : Scan :=
  if s.inFlow then s
  else
    { s with
      tokens := (s.indents.takeWhile ends).map (fun _ => Token.blockEnd) ++ s.tokens
      indents := s.indents.dropWhile ends }

/-! ## Gaps between tokens -/

/-- The place of the next token.  A tab does not count as a blank where a key
may begin.  The fuel exceeds the length of the text. -/
def skipGaps : Nat → Scan → Scan
  | 0, s => s
  | fuel + 1, s =>
    let c := s.cursor
    let c := if c.column == 0 && c.isAt byteOrderMark then c.advance 1 else c
    let c := c.skipWhile fun d => d == ' ' || (d == '\t' && (s.inFlow || !s.keyAllowed))
    let c := c.skipComment
    match c.lineBreak? with
    | some (_, c) => skipGaps fuel { s with cursor := c, keyAllowed := !s.inFlow || s.keyAllowed }
    | none => { s with cursor := c }

/-! ## Tokens -/

/-- Reads a token that belongs to the document as a whole: a directive or a
mark. -/
def documentToken? (t : Token) (c : Cursor) (s : Scan) : Option Scan :=
  (s.closeBlocks fun _ => true).dropKey?.map fun s => (s.allowKey false).emitAt t c

/-- Reads an opening bracket, which may begin a key. -/
def openFlow? (t : Token) (s : Scan) : Option Scan :=
  s.saveKey?.map fun s =>
    ({ s with keys := none :: s.keys }.allowKey true).emitAt t (s.cursor.advance 1)

/-- Reads a closing bracket. -/
def closeFlow? (t : Token) (s : Scan) : Option Scan :=
  s.dropKey?.map fun s =>
    let keys := if s.inFlow then s.keys.drop 1 else s.keys
    ({ s with keys }.allowKey false).emitAt t (s.cursor.advance 1)

/-- Reads a comma. -/
def comma? (s : Scan) : Option Scan :=
  s.dropKey?.map fun s => (s.allowKey true).emitAt .comma (s.cursor.advance 1)

/-- Reads a sign that opens a list or a table outside of brackets, if none is
open there. -/
def blockSign? (t start : Token) (allowed : Bool) (s : Scan) : Option Scan :=
  if !s.inFlow && !s.keyAllowed then none
  else
    (s.openBlock start s.cursor.column s.tokens.length).dropKey?.map fun s =>
      (s.allowKey allowed).emitAt t (s.cursor.advance 1)

/-- Reads the colon before a value. -/
def value? (s : Scan) : Option Scan :=
  match s.keys with
  | some key :: outer =>
    let s := (s.insert .key key.position).openBlock .tableStart key.place.column key.position
    some (({ s with keys := none :: outer }.allowKey false).emitAt .value (s.cursor.advance 1))
  | _ =>
    if !s.inFlow && !s.keyAllowed then none
    else
      let s := s.openBlock .tableStart s.cursor.column s.tokens.length
      some ((s.allowKey (!s.inFlow)).emitAt .value (s.cursor.advance 1))

/-- Reads a token that may begin a key. -/
def keyToken? (read? : Cursor → Option (Token × Cursor)) (s : Scan) : Option Scan := do
  let s ← s.saveKey?
  let (t, c) ← read? s.cursor
  return (s.allowKey false).emitAt t c

/-- Reads a scalar in quotes. -/
def quotedToken? (mark : Char) (s : Scan) : Option Scan :=
  s.keyToken? fun c => (quoted? mark c).map fun (text, c) => (.scalar false text, c)

/-- Reads a scalar without quotes.  A key may follow it on a new line. -/
def plainToken? (s : Scan) : Option Scan := do
  let s ← s.saveKey?
  let indent := match s.indents with
    | [] => 0
    | column :: _ => column + 1
  let (text, broken, c) ← plain? s.inFlow indent s.cursor
  return (s.allowKey broken).emitAt (.scalar true text) c

/-- Reads a block. -/
def blockToken? (folded : Bool) (s : Scan) : Option Scan := do
  let s ← s.dropKey?
  let (text, c) ← block? folded s.indents.head? s.cursor
  return (s.allowKey true).emitAt (.scalar false text) c

/-- Characters with which no scalar without quotes begins. -/
def isIndicator (c : Char) : Bool :=
  ['-', '?', ':', ',', '[', ']', '\x7b', '\x7d', '#', '&', '*', '!', '|', '>', apostrophe, '"', '%',
    '@', Char.ofNat 0x60].contains c

/-- Whether a text begins a scalar without quotes.  A dash may be its first
character, and outside of brackets a question mark or a colon, if no blank
follows. -/
def startsPlain (inFlow : Bool) (first : Char) (rest : List Char) : Bool :=
  (!isGap first && !isIndicator first) || (first == '-' && !rest.head?.any isSpace) ||
    (!inFlow && (first == '?' || first == ':') && !Cursor.gapIn rest)

/-- Reads the token at the present place. -/
def token? (s : Scan) : Option Scan :=
  let c := s.cursor
  match c.rest with
  | [] => none
  | d :: rest =>
    if c.column == 0 && d == '%' then
      (directive? c).bind fun (t, c) => s.documentToken? t c
    else if c.isAtMark '-' then s.documentToken? .documentStart (c.advance 3)
    else if c.isAtMark '.' then s.documentToken? .documentEnd (c.advance 3)
    else if d == '[' then s.openFlow? .openBracket
    else if d == '\x7b' then s.openFlow? .openBrace
    else if d == ']' then s.closeFlow? .closeBracket
    else if d == '\x7d' then s.closeFlow? .closeBrace
    else if d == ',' then s.comma?
    else if d == '-' && Cursor.gapIn rest then s.blockSign? .item .listStart true
    else if d == '?' && (s.inFlow || Cursor.gapIn rest) then
      s.blockSign? .key .tableStart (!s.inFlow)
    else if d == ':' && (s.inFlow || Cursor.gapIn rest) then s.value?
    else if d == '*' then
      s.keyToken? fun c => (anchorName? c).map fun (name, c) => (.reference name, c)
    else if d == '&' then
      s.keyToken? fun c => (anchorName? c).map fun (name, c) => (.anchor name, c)
    else if d == '!' then s.keyToken? (tag? s.inFlow)
    else if d == '|' && !s.inFlow then s.blockToken? false
    else if d == '>' && !s.inFlow then s.blockToken? true
    else if d == apostrophe || d == '"' then s.quotedToken? d
    else if startsPlain s.inFlow d rest then s.plainToken?
    else none

/-- Reads at most `fuel` tokens, up to the end of the document. -/
def tokens? : Nat → Scan → Option (List Token)
  | 0, _ => none
  | fuel + 1, s =>
    match (s.skipGaps (s.cursor.rest.length + 1)).dropStaleKeys? with
    | none => none
    | some s =>
      let s := s.closeBlocks (s.cursor.column < ·)
      if s.cursor.atEnd then
        (s.closeBlocks fun _ => true).dropKey?.map fun s => s.tokens.reverse
      else
        match s.token? with
        | none => none
        | some s => tokens? fuel s

end Scan

/-- The tokens of a text; none if a character may not stand there. -/
def Token.ofChars? (text : List Char) : Option (List Token) :=
  if text.all isPrintable then Scan.tokens? (text.length + 1) { cursor := { rest := text } }
  else none

end CostAnalysis.Yaml
