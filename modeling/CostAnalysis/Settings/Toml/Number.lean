import CostAnalysis.Settings.Document
import CostAnalysis.Settings.Toml.Basic

/-!
# Numbers in a TOML document

Whole numbers have 64 bits and may be written in base ten, sixteen, eight or
two; others have a fraction or an exponent.  An underscore may stand between two
digits.
-/

namespace CostAnalysis.Toml

/-- The digits that follow a digit; an underscore has to have a digit after
it. -/
def moreDigits? (isDigit : Char → Bool) : Reader (List Char)
  | '_' :: c :: rest => if isDigit c then prepend c (moreDigits? isDigit rest) else none
  | ['_'] => none
  | c :: rest => if isDigit c then prepend c (moreDigits? isDigit rest) else some ([], c :: rest)
  | [] => some ([], [])

/-- At least one digit. -/
def digits? (isDigit : Char → Bool) : Reader (List Char)
  | c :: rest => if isDigit c then prepend c (moreDigits? isDigit rest) else none
  | [] => none

/-- The digits of a whole number in base ten; a zero in front is the only
digit. -/
def wholeDigits? : Reader (List Char)
  | '0' :: rest => some (['0'], rest)
  | text => digits? Numeric.DecimalParts.isDigit text

/-- Splits a sign from a number, and says whether it is negative. -/
def splitSign : List Char → Bool × List Char
  | '-' :: rest => (true, rest)
  | '+' :: rest => (false, rest)
  | text => (false, text)

/-- The fraction at the front of a text, if there is one; it has digits after
its point. -/
def fraction? : Reader (Option (List Char))
  | '.' :: rest => (digits? Numeric.DecimalParts.isDigit rest).map fun (ds, rest) => (some ds, rest)
  | text => some (none, text)

/-- The exponent at the front of a text, if there is one; it has digits after
its sign. -/
def exponent? : Reader (Option Int)
  | c :: rest =>
    if c == 'e' || c == 'E' then
      let (negative, digits) := splitSign rest
      (digits? Numeric.DecimalParts.isDigit digits).map fun (ds, rest) =>
        let magnitude := Int.ofNat (Numeric.DecimalParts.digitsValue ds)
        (some (if negative then -magnitude else magnitude), rest)
    else some (none, c :: rest)
  | [] => some (none, [])

/-- A whole number of 64 bits. -/
def int? (z : Int) : Option Document :=
  if Numeric.fitsSigned 64 z then some (.int z) else none

/-- A number in base ten; none beyond all finite numbers on the positive
side. -/
def decimal? : Reader Document := fun text => do
  let (negative, digits) := splitSign text
  let (whole, rest) ← wholeDigits? digits
  let (fraction?, rest) ← fraction? rest
  let (exponent?, rest) ← exponent? rest
  let sign (z : Int) : Int := if negative then -z else z
  if fraction?.isNone && exponent?.isNone then
    let value ← int? (sign (Int.ofNat (Numeric.DecimalParts.digitsValue whole)))
    return (value, rest)
  else
    let parts : Numeric.DecimalParts := { whole, fraction?, exponent? := none }
    let magnitude := parts.valueWith (exponent?.getD 0)
    if negative then return (.double (-magnitude), rest)
    else if Numeric.Double.isFinite magnitude then return (.double magnitude, rest)
    else none

/-- Whether a character is a digit in a base up to sixteen. -/
def isDigitOf (base : Nat) (c : Char) : Bool :=
  (Numeric.readBase? base [c]).isSome

/-- A number in a base other than ten, after the mark of the base. -/
def based? (base : Nat) : Reader Document := fun text => do
  let (digits, rest) ← digits? (isDigitOf base) text
  let magnitude ← Numeric.readBase? base digits
  let value ← int? (Int.ofNat magnitude)
  return (value, rest)

/-- An infinity, or what is no number at all. -/
def special? : Reader Document := fun text =>
  let (negative, name) := splitSign text
  match Text.afterStart ['i', 'n', 'f'] name, Text.afterStart ['n', 'a', 'n'] name with
  | some rest, _ => some (.double (if negative then -1.0 / 0.0 else 1.0 / 0.0), rest)
  | none, some rest => some (.double (0.0 / 0.0), rest)
  | none, none => none

/-- A number. -/
def number? : Reader Document
  | '0' :: 'x' :: rest => based? 16 rest
  | '0' :: 'o' :: rest => based? 8 rest
  | '0' :: 'b' :: rest => based? 2 rest
  | text => (special? text).or (decimal? text)

end CostAnalysis.Toml
