import CostAnalysis.Algebra.Formula.Basic

/-!
# Reading formulas

The texts of formulas are an exchange format, and this module reads it:

```text
sum     := product (('+' | '-') product)*
product := signed (('*' | '/') signed)*
signed  := '-' signed | power
power   := atom (('**' | '^') signed)?
atom    := number | call | name | '(' sum ')'
```

The calls are `Sum(body, (index, start, stop))`, `unknown(text)`, `min` and
`max` of two arguments, `log` (also `lg`, `ln`, `log2`), `sqrt`, and `floor` and
`ceil`, which are dropped.  Blanks may stand around every atom and operator.  A
call of any other function is no formula.

Reading is by functions from the remaining characters to a value and the
characters after it.  Only `signed` refers back to itself, and always after at
least one character has been consumed, so the number of characters bounds the
depth.
-/

namespace CostAnalysis.Formula.Reader

open Text

/-- Reads a value off the front of a text and returns the rest. -/
abbrev Rule (α : Type) := List Char → Option (α × List Char)

/-- The blanks that may stand between the parts of a formula. -/
def isSpace (c : Char) : Bool :=
  c == ' ' || c == '\t' || c == '\r' || c == '\n'

/-- Drops leading blanks. -/
def skip (cs : List Char) : List Char :=
  cs.dropWhile isSpace

/-- Reads one given character and returns the rest. -/
def char (c : Char) : List Char → Option (List Char)
  | d :: rest => if d == c then some rest else none
  | [] => none

/-- Reads one given character with blanks around it. -/
def symbol (c : Char) (cs : List Char) : Option (List Char) :=
  (char c (skip cs)).map skip

/-- The characters that a name begins with. -/
def isNameStart (c : Char) : Bool :=
  isAlphabetic c || c == '_'

/-- The characters that a name goes on with. -/
def isNamePart (c : Char) : Bool :=
  isAlphanumeric c || c == '_' || c == '.'

/-- Reads a name: letters and underscores, then also digits and points. -/
def name : Rule (List Char) := fun cs =>
  match cs.takeWhile isNameStart with
  | [] => none
  | first =>
    let rest := cs.dropWhile isNameStart
    some (first ++ rest.takeWhile isNamePart, rest.dropWhile isNamePart)

/-- The characters of a number: digits, and a point if digits follow it. -/
def numeral (cs : List Char) : List Char × List Char :=
  let whole := cs.takeWhile isAsciiDigit
  let rest := cs.dropWhile isAsciiDigit
  match rest with
  | '.' :: more =>
    match more.takeWhile isAsciiDigit with
    | [] => (whole, rest)
    | fraction => (whole ++ '.' :: fraction, more.dropWhile isAsciiDigit)
  | _ => (whole, rest)

/-- Reads an integer or decimal number. -/
def number : Rule Formula := fun cs =>
  match cs with
  | c :: _ =>
    if isAsciiDigit c then
      let (text, rest) := numeral cs
      (Scalar.read? text).map fun value => (.num value, rest)
    else none
  | [] => none

/-- Divides a text before the first closing parenthesis that matches none in
it. -/
def balanced (depth : Nat) : List Char → Option (List Char × List Char)
  | [] => none
  | c :: rest =>
    let take (deeper : Nat) := (balanced deeper rest).map fun (text, after) => (c :: text, after)
    if c == '(' then take (depth + 1)
    else if c == ')' then
      match depth with
      | 0 => some ([], c :: rest)
      | d + 1 => take d
    else take depth

/-- Reads an opaque fragment, `unknown(text)`. -/
def unknownCall : Rule Formula := fun cs => do
  let rest ← afterStart "unknown".toList cs
  let rest ← symbol '(' rest
  let (text, rest) ← balanced 0 rest
  let rest ← char ')' rest
  return (.unknown (String.ofList (trim text)), rest)

/-- Reads a summation, given a reader of sums. -/
def sumCall (sum : Rule Formula) : Rule Formula := fun cs => do
  let rest ← afterStart "Sum".toList cs
  let rest ← symbol '(' rest
  let (body, rest) ← sum rest
  let rest ← symbol ',' rest
  let rest ← symbol '(' rest
  let (index, rest) ← name (skip rest)
  let rest ← char ',' (skip rest)
  let (start, rest) ← sum rest
  let rest ← char ',' rest
  let (stop, rest) ← sum rest
  let rest ← symbol ')' rest
  let rest ← symbol ')' rest
  return (Formula.sum body (String.ofList index) start stop, rest)

/-- The formula of a call by the function's name and its one or two
arguments. -/
def apply (function : String) (first : Formula) (second : Option Formula) : Option Formula :=
  match second with
  | some b =>
    if function == "min" || function == "Min" then some (first.min b)
    else if function == "max" || function == "Max" then some (first.max b)
    else none
  | none =>
    if function == "log" || function == "lg" || function == "ln" || function == "log2" then
      some first.log
    else if function == "sqrt" then some (first.pow (.num .half))
    else if function == "floor" || function == "ceil" then some first
    else none

/-- Reads a comma and a second argument, where both are there. -/
def secondArgument (sum : Rule Formula) (cs : List Char) : Option Formula × List Char :=
  match (char ',' cs).bind sum with
  | some (e, rest) => (some e, rest)
  | none => (none, cs)

/-- Reads the call of a known function, given a reader of sums. -/
def call (sum : Rule Formula) : Rule Formula := fun cs => do
  let (function, rest) ← name cs
  let rest ← symbol '(' rest
  let (first, rest) ← sum rest
  let (second, rest) := secondArgument sum rest
  let rest ← symbol ')' rest
  let result ← apply (String.ofList function) first second
  return (result, rest)

/-- Reads a variable. -/
def variableName : Rule Formula := fun cs =>
  (name cs).map fun (text, rest) => (.var (String.ofList text), rest)

/-- Reads a sum in parentheses. -/
def group (sum : Rule Formula) : Rule Formula := fun cs => do
  let rest ← char '(' cs
  let (e, rest) ← sum rest
  let rest ← char ')' rest
  return (e, rest)

/-- Reads an atom with blanks around it, given a reader of sums. -/
def atom (sum : Rule Formula) : Rule Formula := fun cs =>
  let start := skip cs
  (number start <|> sumCall sum start <|> unknownCall start <|> call sum start <|>
    variableName start <|> group sum start).map fun (e, rest) => (e, skip rest)

/-- Reads the sign of a power with blanks around it. -/
def powerSign (cs : List Char) : Option (List Char) :=
  match skip cs with
  | '*' :: '*' :: rest => some (skip rest)
  | '^' :: rest => some (skip rest)
  | _ => none

/-- Reads an atom and, where there is one, its exponent. -/
def power (signed atom : Rule Formula) : Rule Formula := fun cs => do
  let (base, rest) ← atom cs
  match (powerSign rest).bind signed with
  | some (exponent, rest) => return (base.pow exponent, rest)
  | none => return (base, rest)

/-- Reads the sign of a product or quotient; two stars are none. -/
def productSign : Rule (Formula → Formula → Formula) := fun cs =>
  match skip cs with
  | '*' :: '*' :: _ => none
  | '*' :: rest => some (Formula.mul, skip rest)
  | '/' :: rest => some (Formula.div, skip rest)
  | _ => none

/-- Reads the sign of a sum or difference. -/
def sumSign : Rule (Formula → Formula → Formula) := fun cs =>
  match skip cs with
  | '+' :: rest => some (Formula.add, skip rest)
  | '-' :: rest => some (Formula.sub, skip rest)
  | _ => none

/-- Continues a chain of operands from the left as long as a sign and an operand
follow. -/
def chain (sign : Rule (Formula → Formula → Formula)) (operand : Rule Formula) :
    Nat → Formula → List Char → Formula × List Char
  | 0, acc, cs => (acc, cs)
  | fuel + 1, acc, cs =>
    match sign cs with
    | none => (acc, cs)
    | some (combine, rest) =>
      match operand rest with
      | none => (acc, cs)
      | some (e, rest) => chain sign operand fuel (combine acc e) rest

/-- Reads operands joined by signs. -/
def chained (sign : Rule (Formula → Formula → Formula)) (operand : Rule Formula) :
    Rule Formula := fun cs => do
  let (first, rest) ← operand cs
  return chain sign operand rest.length first rest

/-- Reads a sum, given a reader of signed powers. -/
def sum (signed : Rule Formula) : Rule Formula :=
  chained sumSign (chained productSign signed)

/-- Reads a power with any number of minus signs before it, to a bounded
depth. -/
def signed : Nat → Rule Formula
  | 0 => fun _ => none
  | depth + 1 => fun cs =>
    match symbol '-' cs with
    | some rest => (signed depth rest).map fun (e, rest) => (e.neg, rest)
    | none => power (signed depth) (atom (sum (signed depth))) cs

end CostAnalysis.Formula.Reader

namespace CostAnalysis.Formula

open Text

/-- Reads a formula that makes up a whole text. -/
def ofChars? (cs : List Char) : Option Formula :=
  match Reader.sum (Reader.signed (cs.length + 1)) cs with
  | some (e, []) => some e
  | _ => none

/-- Reads a formula that makes up a whole text. -/
def read? (text : String) : Option Formula :=
  ofChars? text.toList

/-- The pieces of a text between the plus signs outside of parentheses. -/
def topLevelPieces (depth : Int) : List Char → List (List Char)
  | [] => [[]]
  | c :: rest =>
    if c == '+' && depth == 0 then [] :: topLevelPieces depth rest
    else
      let deeper := if c == '(' then depth + 1 else if c == ')' then depth - 1 else depth
      match topLevelPieces deeper rest with
      | [] => [[c]]
      | piece :: pieces => (c :: piece) :: pieces

/-- Adds to a formula the reading of one piece; a piece that cannot be read
becomes an opaque term and is listed. -/
def addPiece (state : Formula × List String) (piece : List Char) : Formula × List String :=
  let trimmed := trim piece
  if trimmed.isEmpty then state
  else
    match ofChars? trimmed with
    | some e => (state.1.add e, state.2)
    | none =>
      let text := String.ofList trimmed
      (state.1.add (.unknown text), state.2 ++ [text])

/-- Reads any text.  If it is no formula as a whole, its top-level terms are
read one by one, and those that are none are kept as opaque terms; they are also
returned. -/
def readLenient (text : String) : Formula × List String :=
  match read? text with
  | some e => (e, [])
  | none => (topLevelPieces 0 text.toList).foldl addPiece (zero, [])

end CostAnalysis.Formula
