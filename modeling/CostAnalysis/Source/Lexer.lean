import CostAnalysis.Source.SyntaxError
import CostAnalysis.Text.Blank
import CostAnalysis.Text.Numeral

/-!
# Dividing a source text into tokens

At each place the longest lexeme is taken.  A lexeme is a token or is skipped:
blanks, line breaks and comments, which run from `//` or `►` to the end of their
line.  `lexemeAfter` says of which class the lexeme at a place is and how many
characters it takes beyond the first one, so the lexemes of a text are
consecutive pieces of it by construction.

Only line breaks between tokens advance the line; a string literal may span
lines and does not.
-/

namespace CostAnalysis.Lexer

open Text

/-- The classes of lexemes. -/
inductive Lexeme where
  | token (kind : TokenKind)
  | blank
  | comment
  | lineBreak
  /-- No token starts here. -/
  | invalid
deriving DecidableEq

/-- A letter that may start a name: ASCII and Latin-1 letters and the
underscore. -/
def isNameStart (c : Char) : Bool :=
  isAsciiLetter c || c == '_' || ('À' ≤ c && c ≤ 'Ö') || ('Ø' ≤ c && c ≤ 'ö') ||
    ('ø' ≤ c && c ≤ 'ÿ')

/-- A character that may continue a name. -/
def isNameChar (c : Char) : Bool :=
  isNameStart c || isAsciiDigit c

/-- The blanks between tokens. -/
def isSpace (c : Char) : Bool :=
  c == ' ' || c == '\t' || c.toNat == 12

/-- The characters of line breaks. -/
def isLineEnd (c : Char) : Bool :=
  c == '\r' || c == '\n'

/-- How many characters of a class a text starts with. -/
def runLength (p : Char → Bool) (cs : List Char) : Nat :=
  (cs.takeWhile p).length

/-- How many characters after the first digit belong to a number: further
digits, and a fraction if digits follow the point. -/
def numberTail (rest : List Char) : Nat :=
  let whole := runLength isDecimalDigit rest
  match rest.drop whole with
  | '.' :: more =>
    let fraction := runLength isDecimalDigit more
    if fraction = 0 then whole else whole + 1 + fraction
  | _ => whole

/-- How far a string literal reaches after its opening quote: the number of
characters up to and including the closing quote, and whether there is one.  A
backslash takes the next character with it, unless that is a line feed. -/
def stringTail : List Char → Nat × Bool
  | [] => (0, false)
  | '"' :: _ => (1, true)
  | '\\' :: c :: rest =>
    if c == '\n' then (0, false)
    else
      let (n, closed) := stringTail rest
      (n + 2, closed)
  | ['\\'] => (0, false)
  | _ :: rest =>
    let (n, closed) := stringTail rest
    (n + 1, closed)

/-- The kind of a name. -/
def wordKind (word : List Char) : TokenKind :=
  (TokenKind.keywords.lookup (String.ofList word)).getD .identifier

/-- The sign at the front of a text, and how many characters it has beyond the
first one. -/
def signAt (cs : List Char) : Lexeme × Nat :=
  match TokenKind.signs.find? fun sign => sign.1.toList.isPrefixOf cs with
  | some (spelling, kind) => (.token kind, spelling.length - 1)
  | none => (.invalid, 0)

/-- The class of the lexeme that starts with `c`, where `rest` follows, and the
number of characters of `rest` that belong to it. -/
def lexemeAfter (c : Char) (rest : List Char) : Lexeme × Nat :=
  if isSpace c then (.blank, runLength isSpace rest)
  else if isLineEnd c then (.lineBreak, runLength isLineEnd rest)
  else if isNameStart c then
    let tail := runLength isNameChar rest
    (.token (wordKind (c :: rest.take tail)), tail)
  else if isDecimalDigit c then (.token .numberLiteral, numberTail rest)
  else if c == '"' then
    let (n, closed) := stringTail rest
    (if closed then .token .stringLiteral else .invalid, n)
  else if c == '►' || (c == '/' && rest.head? == some '/') then
    (.comment, runLength (fun d => !isLineEnd d) rest)
  else signAt (c :: rest)

/-- The number of line breaks in a run of line ends, a carriage return and a
line feed together being one. -/
def lineBreaks : List Char → Nat
  | [] => 0
  | '\r' :: '\n' :: rest => lineBreaks rest + 1
  | _ :: rest => lineBreaks rest + 1

/-- The position after a lexeme. -/
def advance (p : Position) (lexeme : Lexeme) (text : List Char) : Position :=
  let offset := p.offset + (String.ofList text).utf8ByteSize
  match lexeme with
  | .lineBreak => { line := p.line + lineBreaks text, column := 1, offset }
  | _ => { line := p.line, column := p.column + text.length, offset }

/-- The tokens of the text from a position on, ended by a token for the end of
the input. -/
def tokensFrom (p : Position) (cs : List Char) : Except SyntaxError (List Token) :=
  match cs with
  | [] => .ok [⟨.endOfInput, "", p⟩]
  | c :: rest =>
    let (lexeme, tail) := lexemeAfter c rest
    let text := c :: rest.take tail
    match lexeme with
    | .invalid => .error ⟨.badCharacter (String.ofList text), p⟩
    | .token kind =>
      (tokensFrom (advance p lexeme text) (rest.drop tail)).map
        (⟨kind, String.ofList text, p⟩ :: ·)
    | _ => tokensFrom (advance p lexeme text) (rest.drop tail)
termination_by cs.length
decreasing_by all_goals (simp only [List.length_drop, List.length_cons]; omega)

end CostAnalysis.Lexer

namespace CostAnalysis

/-- A text without the byte order mark at its front. -/
def stripMark (cs : List Char) : List Char :=
  match cs with
  | c :: rest => if c.toNat = 0xfeff then rest else cs
  | [] => []

/-- The tokens of a source text. -/
def tokenize (source : String) : Except SyntaxError (List Token) :=
  Lexer.tokensFrom {} (stripMark source.toList)

end CostAnalysis
