import CostAnalysis.Text.Blank

/-!
# Lines of a TOML document

What the readers of this format share: blanks, comments, and the ends of lines.
A reader takes something from the front of a text and gives it together with the
rest of the text.
-/

namespace CostAnalysis.Toml

/-- A reader of values at the front of a text; it gives the value and the rest,
or fails. -/
abbrev Reader (α : Type) := List Char → Option (α × List Char)

/-- Puts a value before those that were read. -/
def prepend (x : α) : Option (List α × List Char) → Option (List α × List Char)
  | some (xs, rest) => some (x :: xs, rest)
  | none => none

/-- The apostrophe. -/
def apostrophe : Char :=
  Char.ofNat 0x27

/-- Blanks within a line. -/
def isSpace (c : Char) : Bool :=
  c == ' ' || c == '\t'

/-- Characters that may not stand in a line. -/
def isControl (c : Char) : Bool :=
  (c.toNat < 0x20 && c != '\t') || c.toNat == 0x7F

/-- What follows the blanks at the front of a text. -/
def skipSpaces (text : List Char) : List Char :=
  text.dropWhile isSpace

/-- What follows a line break: a line feed, or a carriage return with a line
feed. -/
def afterBreak? : List Char → Option (List Char)
  | '\n' :: rest => some rest
  | '\r' :: '\n' :: rest => some rest
  | _ => none

/-- What follows a comment, if there is one at the front of a text. -/
def skipComment : List Char → List Char
  | '#' :: rest => rest.dropWhile fun c => !isControl c
  | text => text

/-- What follows a line of which only blanks and a comment are left; the end of
the text ends the last line. -/
def afterLine? (text : List Char) : Option (List Char) :=
  match skipComment (skipSpaces text) with
  | [] => some []
  | rest => afterBreak? rest

/-- What follows the blanks and at most `fuel` line breaks at the front of a
text, with what `pass` leaves out of a line before its break. -/
def skipBreaks (pass : List Char → List Char) : Nat → List Char → List Char
  | 0, text => text
  | fuel + 1, text =>
    match afterBreak? (pass (skipSpaces text)) with
    | some rest => skipBreaks pass fuel rest
    | none => skipSpaces text

/-- What follows blanks and line breaks. -/
def skipBlankLines (text : List Char) : List Char :=
  skipBreaks id (text.length + 1) text

/-- What follows blanks, comments and line breaks. -/
def skipLines (text : List Char) : List Char :=
  skipBreaks skipComment (text.length + 1) text

end CostAnalysis.Toml
