import CostAnalysis.Numeric.Literal
import CostAnalysis.Settings.Yaml.Cursor
import CostAnalysis.Text.Encoding

/-!
# Tokens of a YAML document

The tokens name the structure of a document.  Some of them are written, such as
the colon after a key; others say what the indentation means, such as the end of
a block.
-/

namespace CostAnalysis.Yaml

/-- A token. -/
inductive Token where
  /-- The version that a document asks for. -/
  | version (major minor : Nat)
  /-- What the handle of a tag stands for. -/
  | handle (name meaning : List Char)
  | documentStart
  | documentEnd
  /-- The start of a list by indentation. -/
  | listStart
  /-- The start of a table by indentation. -/
  | tableStart
  /-- The end of a list or a table by indentation. -/
  | blockEnd
  | openBracket
  | closeBracket
  | openBrace
  | closeBrace
  /-- The dash before an item of a list. -/
  | item
  /-- The comma between items inside of brackets. -/
  | comma
  /-- What follows is a key. -/
  | key
  /-- What follows is the value of a key. -/
  | value
  | reference (name : List Char)
  | anchor (name : List Char)
  | tag (handle suffix : List Char)
  | scalar (isPlain : Bool) (text : List Char)
deriving DecidableEq

/-! ## Directives -/

/-- A part of a version, of at most nine digits. -/
def versionPart? (c : Cursor) : Option (Nat × Cursor) :=
  let (digits, c) := c.takeWhile fun d => '0' ≤ d && d ≤ '9'
  if digits.isEmpty || 9 < digits.length then none
  else some (digits.foldl (fun n d => 10 * n + (d.toNat - '0'.toNat)) 0, c)

/-- The version in a directive. -/
def version? (c : Cursor) : Option (Token × Cursor) := do
  let (major, c) ← versionPart? (c.skipWhile isSpace)
  if c.isAt '.' then
    let (minor, c) ← versionPart? (c.advance 1)
    return (.version major minor, c)
  else none

/-! ## Tags -/

/-- The handle of a tag: an exclamation mark, or a name between two of them.
Otherwise it is the beginning of a tag without a handle, which a directive does
not admit. -/
def handle? (inDirective : Bool) (c : Cursor) : Option (List Char × Cursor) :=
  if !c.isAt '!' then none
  else
    let (name, c) := (c.advance 1).takeWhile isNameChar
    if c.isAt '!' then some ('!' :: name ++ ['!'], c.advance 1)
    else if inDirective && !name.isEmpty then none
    else some ('!' :: name, c)

/-- The characters of a tag; those with a meaning inside of brackets may only
stand in a tag that is written out. -/
def isTagChar (whole : Bool) (c : Char) : Bool :=
  isNameChar c || c == apostrophe || ";/?:@&=+$.!~*()".toList.contains c ||
    (whole && [',', '[', ']'].contains c)

/-- An octet written as a percent sign and two hexadecimal digits. -/
def tagOctet? (text : List Char) : Option UInt8 :=
  match text with
  | '%' :: a :: b :: _ => (Numeric.readBase? 16 [a, b]).map UInt8.ofNat
  | _ => none

/-- The number of octets of a character, by its first one. -/
def octetCount? (first : UInt8) : Option Nat :=
  let n := first.toNat
  if n < 0x80 then some 1
  else if 0xC0 ≤ n && n < 0xE0 then some 2
  else if 0xE0 ≤ n && n < 0xF0 then some 3
  else if 0xF0 ≤ n && n < 0xF8 then some 4
  else none

/-- The octets of a character that is written with percent signs. -/
def tagOctets? (text : List Char) : Option (List UInt8) := do
  let first ← tagOctet? text
  let count ← octetCount? first
  let more ← (List.range (count - 1)).mapM fun k => tagOctet? (text.drop (3 * (k + 1)))
  if more.all fun b => 0x80 ≤ b.toNat && b.toNat < 0xC0 then return first :: more else none

/-- The longest part of a tag at a place.  The fuel exceeds the length of the
text. -/
def tagPart? (whole : Bool) : Nat → Cursor → Option (List Char × Cursor)
  | 0, _ => none
  | fuel + 1, c =>
    match c.head? with
    | none => some ([], c)
    | some d =>
      if d == '%' then
        match tagOctets? c.rest with
        | none => none
        | some octets =>
          (tagPart? whole fuel (c.advance (3 * octets.length))).map fun (cs, c) =>
            (Text.replaceMalformed (Text.decodeUtf8 octets) ++ cs, c)
      else if isTagChar whole d then
        (tagPart? whole fuel (c.advance 1)).map fun (cs, c) => (d :: cs, c)
      else some ([], c)

/-- A part of a tag that is not empty. -/
def tagPart1? (whole : Bool) (c : Cursor) : Option (List Char × Cursor) :=
  (tagPart? whole (c.rest.length + 1) c).filter fun (cs, _) => !cs.isEmpty

/-- What a handle stands for, in a directive. -/
def handleDirective? (c : Cursor) : Option (Token × Cursor) := do
  let (name, c) ← handle? true (c.skipWhile isSpace)
  if !c.head?.any isSpace then none
  else
    let (meaning, c) ← tagPart1? true (c.skipWhile isSpace)
    if Cursor.gapIn c.rest then return (.handle name meaning, c) else none

/-- A directive, from its percent sign on. -/
def directive? (c : Cursor) : Option (Token × Cursor) := do
  let (name, c) := (c.advance 1).takeWhile isNameChar
  let (token, c) ←
    if !Cursor.gapIn c.rest then none
    else if name == "YAML".toList then version? c
    else if name == "TAG".toList then handleDirective? c
    else none
  let c ← c.skipLine?
  return (token, c)

/-- A tag without the check of what follows it: written out between angle
brackets, with a handle, or without one. -/
def bareTag? (c : Cursor) : Option (Token × Cursor) :=
  if (c.advance 1).isAt '<' then do
    let (suffix, c) ← tagPart1? true (c.advance 2)
    if c.isAt '>' then return (.tag [] suffix, c.advance 1) else none
  else do
    let (handle, c) ← handle? false c
    if 2 ≤ handle.length && handle.getLast? == some '!' then
      let (suffix, c) ← tagPart1? false c
      return (.tag handle suffix, c)
    else
      let (more, c) ← tagPart? false (c.rest.length + 1) c
      let suffix := handle.drop 1 ++ more
      return (if suffix.isEmpty then .tag [] ['!'] else .tag ['!'] suffix, c)

/-- A tag, from its exclamation mark on. -/
def tag? (inFlow : Bool) (c : Cursor) : Option (Token × Cursor) :=
  (bareTag? c).filter fun (_, c) => (inFlow && c.isAt ',') || Cursor.gapIn c.rest

/-! ## Anchors -/

/-- The name of an anchor or an alias, from its sign on. -/
def anchorName? (c : Cursor) : Option (List Char × Cursor) :=
  let (name, c) := (c.advance 1).takeWhile isNameChar
  let ends := match c.head? with
    | none => true
    | some d =>
      isGap d || ['?', ':', ',', ']', '\x7d', '%', '@', Char.ofNat 0x60].contains d
  if !name.isEmpty && ends then some (name, c) else none

end CostAnalysis.Yaml
