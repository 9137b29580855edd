import CostAnalysis.Algebra.ClosedForm
import CostAnalysis.Algebra.Formula.Reader
import CostAnalysis.Algebra.Growth
import CostAnalysis.Text.Lowercase
import CostAnalysis.Text.Template
import CostAnalysis.Text.WordChar

/-!
# Work

The work of a recurrence is what a call costs outside its recursive calls, as a
class of growth in the size `n`.  It can be read from a text in the notation
that recurrences are written in, where products may be written without a sign,
as in `3n log n`, and where a bound such as `O(n)` stands for the function
inside.
-/

namespace CostAnalysis

/-- The work `f(n)` of a recurrence. -/
structure Work where
  text : String
  growth : Growth
  /-- The work as a formula.  A call costs at least a constant, so that no work
  counts as one. -/
  formula? : Option Formula
  /-- Whether the growth of the work in `n` is known. -/
  known : Bool

namespace Work

/-- Constant work. -/
def constant : Work :=
  { text := "1", growth := Growth.constant, formula? := some Formula.one, known := true }

/-- No work. -/
def zero : Work :=
  { text := "0", growth := Growth.constant, formula? := some Formula.one, known := true }

/-- Work that is kept as a text. -/
def verbatim (text : String) : Work :=
  { text, growth := Growth.ofText text, formula? := none, known := false }

/-- Whether there is no work. -/
def isZero (w : Work) : Bool :=
  w.text == "0"

/-- Whether the work grows exponentially. -/
def isExponential (w : Work) : Bool :=
  !w.growth.exponentials.isEmpty

/-- Whether the work is a power times a power of a logarithm. -/
def isPolylog (w : Work) : Bool :=
  w.known && !w.isExponential

/-! ## Notation -/

/-- The small Latin letters. -/
def isSmallLetter (c : Char) : Bool :=
  'a' ≤ c && c ≤ 'z'

/-- The ASCII digits. -/
def isAsciiDigit (c : Char) : Bool :=
  '0' ≤ c && c ≤ '9'

/-- Characters that end a name or a number, so that a new factor may follow. -/
def isSeparator (c : Char) : Bool :=
  !(isSmallLetter c || isAsciiDigit c || c == '_' || c == '.')

/-- A logarithm of a variable without parentheses, as in `logn`; its value is
the variable. -/
def bareLog : Text.Pattern Char := fun _ text =>
  match Text.afterStart ['l', 'o', 'g'] text with
  | some (c :: _) => if isSmallLetter c then some (c, 4) else none
  | _ => none

/-- A factor directly before a logarithm, as in `nlog(`; its value is the last
character of the factor. -/
def factorBeforeLog : Text.Pattern Char := fun _ text =>
  match text with
  | c :: rest =>
    if (isSmallLetter c || isAsciiDigit c || c == ')') &&
        (Text.afterStart ['l', 'o', 'g', '('] rest).isSome then some (c, 5)
    else none
  | [] => none

/-- A number followed by a letter or a parenthesis, and that character. -/
def numberBeforeFactor (text : List Char) : Option (List Char × Char) :=
  match text.takeWhile Text.isDecimalDigit, text.dropWhile Text.isDecimalDigit with
  | d :: ds, c :: _ => if isSmallLetter c || c == '(' then some (d :: ds, c) else none
  | _, _ => none

/-- A number directly before a factor, as in `3n`, at the start or after a
separator; its value is the separator, the number and the first character of the
factor. -/
def coefficientBeforeFactor : Text.Pattern (List Char × List Char × Char) := fun before text =>
  let atStart :=
    if before.isNone then (numberBeforeFactor text).map fun (n, c) => (([], n, c), n.length + 1)
    else none
  match atStart, text with
  | some found, _ => some found
  | none, s :: rest =>
    if isSeparator s then
      (numberBeforeFactor rest).map fun (n, c) => (([s], n, c), n.length + 2)
    else none
  | none, [] => none

/-- Writes out the products and parentheses that the notation leaves out. -/
def explicit (text : List Char) : List Char :=
  let text := Text.replace bareLog (fun c => ['l', 'o', 'g', '(', c, ')']) text
  let text := Text.replace factorBeforeLog (fun c => [c, '*', 'l', 'o', 'g', '(']) text
  Text.replace coefficientBeforeFactor (fun (s, n, c) => s ++ n ++ ['*', c]) text

/-- The openings of asymptotic bounds. -/
def boundOpenings : List (List Char) :=
  ["o(", "θ(", "ϴ(", "theta(", "ω(", "omega(", "big_o("].map String.toList

/-- What stands inside an asymptotic bound. -/
def insideBound? (text : List Char) : Option (List Char) :=
  boundOpenings.findSome? fun opening =>
    match Text.afterStart opening text with
    | some rest => if rest.getLast? == some ')' then some rest.dropLast else none
    | none => none

/-- Removes at most `fuel` asymptotic bounds around a text. -/
def stripBounds : Nat → List Char → List Char
  | 0, text => text
  | fuel + 1, text =>
    match insideBound? text with
    | some inner => stripBounds fuel inner
    | none => text

/-- A text in small letters, without blanks, and with `*` for every sign of
multiplication. -/
def compactForm (text : List Char) : List Char :=
  ((Text.lowercase text).filter fun c => !Text.isBlank c).map fun c =>
    if c == '·' || c == '×' then '*' else c

/-- The work that a formula describes; `text` is how it was written. -/
def ofFormula (text : String) (e : Formula) : Work :=
  let poly := e.simplify.poly
  if poly.isZero then zero
  else
    let growth := Growth.ofPoly ["n"] poly
    let known := growth.verbatim.isNone
    { text := if known then growth.text else text, growth, formula? := some e, known }

/-- The work that a text describes.  A text that is no formula is kept
verbatim. -/
def read (text : String) : Work :=
  let compact := compactForm text.toList
  let inner := stripBounds compact.length compact
  let name := String.ofList inner
  if name == "" || name == "0" then zero
  else
    let expression := if name == "c" || name == "k" then ['1'] else explicit inner
    match Formula.ofChars? expression with
    | some e => ofFormula name e
    | none => verbatim name

/-- The work of a class of growth, with all its variables taken for the size. -/
def ofGrowth (g : Growth) : Work :=
  match g.verbatim with
  | some text => read text
  | none =>
    let growth := Growth.polylog "n" g.degree g.logCount
    let power :=
      if g.degree.isZero then Formula.one else (Formula.var "n").pow (.num g.degree)
    let formula :=
      if g.logCount.isZero then power
      else power.mul ((Formula.var "n").log.pow (.num g.logCount))
    { text := growth.text, growth, formula? := some formula, known := true }

/-! ## The work at another size -/

/-- The size `n` as a word of its own. -/
def sizeWord : Text.Pattern Unit := fun before text =>
  match text with
  | 'n' :: rest =>
    let wordAfter := match rest with
      | c :: _ => Text.isWordChar c
      | [] => false
    if before.any Text.isWordChar || wordAfter then none else some ((), 1)
  | _ => none

/-- The text of a function of `n` at another size.  The size takes the place of
`n` as a template.
-/
def textAt (text size : String) : String :=
  if size == "n" then text
  else if text == "n" then size
  else
    let written := Text.expand ['n'] ("(" ++ size ++ ")").toList
    String.ofList (Text.replace sizeWord (fun _ => written) text.toList)

/-- The text of the work at another size. -/
def atSize (w : Work) (size : String) : String :=
  textAt w.text size

end Work

end CostAnalysis
