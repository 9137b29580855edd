import CostAnalysis.Numeric.Literal
import CostAnalysis.Settings.Toml.Basic

/-!
# Strings in a TOML document

A string stands between quotation marks or between apostrophes.  Only between
quotation marks does a backslash begin an escape.  With the mark written three
times a string may go over several lines.
-/

namespace CostAnalysis.Toml

/-! ## Escapes -/

/-- The character of a code point given in hexadecimal digits. -/
def codePoint? (digits : List Char) : Option Char :=
  match Numeric.readBase? 16 digits with
  | some n => if n.isValidChar then some (Char.ofNat n) else none
  | none => none

/-- A character given by a fixed number of hexadecimal digits. -/
def codePointOf? (count : Nat) : Reader Char := fun text =>
  if text.length < count then none
  else (codePoint? (text.take count)).map fun c => (c, text.drop count)

/-- The character that an escape of one letter stands for. -/
def escapeChar? (c : Char) : Option Char :=
  [('b', Char.ofNat 8), ('t', '\t'), ('n', '\n'), ('f', Char.ofNat 12), ('r', '\r'), ('"', '"'),
    ('\\', '\\')].lookup c

/-- The character that an escape stands for, after its backslash. -/
def escape? : Reader Char
  | 'u' :: rest => codePointOf? 4 rest
  | 'U' :: rest => codePointOf? 8 rest
  | c :: rest => (escapeChar? c).map fun x => (x, rest)
  | [] => none

/-- What follows a line break that is escaped, after its backslash: the text
from the next character on that is no blank and no break. -/
def afterEscapedBreak? (text : List Char) : Option (List Char) :=
  (afterBreak? (skipSpaces text)).map skipBlankLines

/-! ## Strings -/

/-- The rest of a string on one line, after its opening mark.  The fuel exceeds
the length of the text. -/
def short? (mark : Char) : Nat → Reader (List Char)
  | 0, _ => none
  | _ + 1, [] => none
  | fuel + 1, c :: rest =>
    if c == mark then some ([], rest)
    else if c == '\\' && mark == '"' then
      match escape? rest with
      | some (x, rest) => prepend x (short? mark fuel rest)
      | none => none
    else if isControl c then none
    else prepend c (short? mark fuel rest)

/-- The rest of a string over several lines, after its opening marks.  One or
two marks belong to the string; of three to five, all but the last three do.
The fuel exceeds the length of the text.
-/
def long? (mark : Char) : Nat → Reader (List Char)
  | 0, _ => none
  | _ + 1, [] => none
  | fuel + 1, c :: rest =>
    if c == mark then
      match afterMarks rest with
      | (marks, some rest) => some (marks, rest)
      | (marks, none) =>
        (long? mark fuel (rest.drop (marks.length - 1))).map fun (cs, rest) => (marks ++ cs, rest)
    else if c == '\\' && mark == '"' then
      match afterEscapedBreak? rest, escape? rest with
      | some rest, _ => long? mark fuel rest
      | none, some (x, rest) => prepend x (long? mark fuel rest)
      | none, none => none
    else
      match afterBreak? (c :: rest) with
      | some rest => prepend '\n' (long? mark fuel rest)
      | none => if isControl c then none else prepend c (long? mark fuel rest)
where
  /-- The marks of a run that belong to the string, and what follows the string
  if the run ends it, after the first mark of the run. -/
  afterMarks (rest : List Char) : List Char × Option (List Char) :=
    let count := (rest.takeWhile (· == mark)).length + 1
    if count < 3 then (List.replicate count mark, none)
    else
      let taken := Min.min count 5
      (List.replicate (taken - 3) mark, some (rest.drop (taken - 1)))

/-- A string on one line. -/
def shortString? : Reader (List Char)
  | c :: rest => if c == '"' || c == apostrophe then short? c (rest.length + 1) rest else none
  | [] => none

/-- A string.  A line break directly after three opening marks does not belong
to it. -/
def string? : Reader (List Char)
  | c :: rest =>
    match Text.afterStart [c, c] rest with
    | some body =>
      if c == '"' || c == apostrophe then
        long? c (body.length + 1) ((afterBreak? body).getD body)
      else none
    | none => shortString? (c :: rest)
  | [] => none

end CostAnalysis.Toml
