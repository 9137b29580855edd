/-!
# Places in a YAML document

Indentation means something in this format, and a key has to stand on one line.
So a place in a document is known by its line and its column as well as by the
text that follows it.
-/

namespace CostAnalysis.Yaml

/-- The apostrophe. -/
def apostrophe : Char :=
  Char.ofNat 0x27

/-- The mark of the order of bytes, which may stand at the front of a line. -/
def byteOrderMark : Char :=
  Char.ofNat 0xFEFF

/-- Blanks within a line. -/
def isSpace (c : Char) : Bool :=
  c == ' ' || c == '\t'

/-- Characters that end a line. -/
def isBreak (c : Char) : Bool :=
  [0x0A, 0x0D, 0x85, 0x2028, 0x2029].contains c.toNat

/-- Blanks and characters that end a line. -/
def isGap (c : Char) : Bool :=
  isSpace c || isBreak c

/-- Characters that may stand in a document. -/
def isPrintable (c : Char) : Bool :=
  let n := c.toNat
  n == 0x09 || n == 0x0A || n == 0x0D || (0x20 ≤ n && n ≤ 0x7E) || n == 0x85 ||
    (0xA0 ≤ n && n ≤ 0xFFFD) || 0x10000 ≤ n

/-- Characters of the names of anchors, of directives and of the handles of
tags. -/
def isNameChar (c : Char) : Bool :=
  ('0' ≤ c && c ≤ '9') || ('A' ≤ c && c ≤ 'Z') || ('a' ≤ c && c ≤ 'z') || c == '_' || c == '-'

/-- A place in a document. -/
structure Cursor where
  /-- The text from here on. -/
  rest : List Char
  /-- The number of characters before. -/
  index : Nat := 0
  line : Nat := 0
  column : Nat := 0

namespace Cursor

/-- The next character. -/
def head? (c : Cursor) : Option Char :=
  c.rest.head?

/-- Whether the document ends here. -/
def atEnd (c : Cursor) : Bool :=
  c.rest.isEmpty

/-- Whether a given character is next. -/
def isAt (c : Cursor) (d : Char) : Bool :=
  c.head? == some d

/-- Whether a text ends or has a gap at its front. -/
def gapIn (text : List Char) : Bool :=
  match text with
  | [] => true
  | d :: _ => isGap d

/-- Whether a text ends or has the end of a line at its front. -/
def breakIn (text : List Char) : Bool :=
  match text with
  | [] => true
  | d :: _ => isBreak d

/-- The place after some characters of a line. -/
def advance (n : Nat) (c : Cursor) : Cursor :=
  { c with rest := c.rest.drop n, index := c.index + n, column := c.column + n }

/-- The characters of a class at the front, and the place after them. -/
def takeWhile (p : Char → Bool) (c : Cursor) : List Char × Cursor :=
  let run := c.rest.takeWhile p
  (run, c.advance run.length)

/-- The place after the characters of a class. -/
def skipWhile (p : Char → Bool) (c : Cursor) : Cursor :=
  (c.takeWhile p).2

/-- The line break at a place, and the place after it.  Breaks of all kinds are
line feeds, but for the separators of lines and of paragraphs. -/
def lineBreak? (c : Cursor) : Option (Char × Cursor) :=
  let next (n : Nat) : Cursor :=
    { rest := c.rest.drop n, index := c.index + n, line := c.line + 1, column := 0 }
  match c.rest with
  | '\r' :: '\n' :: _ => some ('\n', next 2)
  | d :: _ =>
    if !isBreak d then none
    else some (if d.toNat == 0x2028 || d.toNat == 0x2029 then d else '\n', next 1)
  | [] => none

/-- The place after a line break, if there is one. -/
def skipBreak (c : Cursor) : Cursor :=
  match c.lineBreak? with
  | some (_, next) => next
  | none => c

/-- The place after a comment, if there is one. -/
def skipComment (c : Cursor) : Cursor :=
  if c.isAt '#' then c.skipWhile fun d => !isBreak d else c

/-- The place after the rest of a line, which may only have blanks and a
comment. -/
def skipLine? (c : Cursor) : Option Cursor :=
  let c := (c.skipWhile isSpace).skipComment
  if breakIn c.rest then some c.skipBreak else none

/-- Whether a mark of three characters stands here for the start or the end of a
document. -/
def isAtMark (mark : Char) (c : Cursor) : Bool :=
  c.column == 0 && c.rest.take 3 == [mark, mark, mark] && gapIn (c.rest.drop 3)

/-- Whether a document starts or ends here by a mark. -/
def atDocumentMark (c : Cursor) : Bool :=
  c.isAtMark '-' || c.isAtMark '.'

end Cursor

end CostAnalysis.Yaml
