import CostAnalysis.Numeric.Double
import CostAnalysis.Numeric.Word

/-!
# Number literals

The parts of a written decimal number and its value in floating point, correctly
rounded.
-/

namespace CostAnalysis.Numeric

/-- A decimal number as written, without its sign. -/
structure DecimalParts where
  /-- The digits before the point. -/
  whole : List Char
  /-- The digits after the point, where there is one. -/
  fraction? : Option (List Char)
  /-- The exponent, where there is one. -/
  exponent? : Option (List Char)

namespace DecimalParts

/-- The ASCII digits. -/
def isDigit (c : Char) : Bool :=
  '0' ≤ c && c ≤ '9'

/-- The fraction at the front of a text, and the rest. -/
def splitFraction (accept : Char → Bool) : List Char → Option (List Char) × List Char
  | '.' :: rest => (some (rest.takeWhile accept), rest.dropWhile accept)
  | rest => (none, rest)

/-- The exponent that a text consists of; none where something else follows. -/
def splitExponent : List Char → Option (Option (List Char))
  | [] => some none
  | c :: rest => if c == 'e' || c == 'E' then some (some rest) else none

/-- Splits a number into its parts, where `accept` are the characters of its
digits. -/
def split? (accept : Char → Bool) (text : List Char) : Option DecimalParts :=
  let (fraction?, rest) := splitFraction accept (text.dropWhile accept)
  (splitExponent rest).map fun exponent? =>
    { whole := text.takeWhile accept, fraction?, exponent? }

/-- The number that digits make up. -/
def digitsValue (digits : List Char) : Nat :=
  digits.foldl (fun n c => 10 * n + (c.toNat - '0'.toNat)) 0

/-- The value of a number with an exponent.  Exponents beyond all numbers are
cut, so that the value is infinite or zero without a long computation. -/
def valueWith (p : DecimalParts) (exponent : Int) : Float :=
  let fraction := p.fraction?.getD []
  let digits := p.whole ++ fraction
  let shift := exponent - Int.ofNat fraction.length
  let bound : Int := Int.ofNat digits.length + 400
  Double.ofDecimal (digitsValue digits) (Max.max (-bound) (Min.min bound shift))

/-- The value of a number whose exponent is an integer. -/
def value? (p : DecimalParts) : Option Float :=
  match p.exponent? with
  | none => some (p.valueWith 0)
  | some text => (readInt text).map p.valueWith

end DecimalParts

/-- Reads a number with an optional sign, at least one digit, and an optional
fraction and exponent. -/
def readDouble? (text : List Char) : Option Float :=
  let unsigned (cs : List Char) : Option Float :=
    match DecimalParts.split? DecimalParts.isDigit cs with
    | some p =>
      if p.whole.isEmpty && (p.fraction?.getD []).isEmpty then none else p.value?
    | none => none
  match text with
  | '-' :: rest => (unsigned rest).map fun x => -x
  | '+' :: rest => unsigned rest
  | _ => unsigned text

/-- Reads a natural number in a base up to sixteen; the digits may be followed
by nothing. -/
def readBase? (base : Nat) (text : List Char) : Option Nat :=
  let digit? (c : Char) : Option Nat :=
    let d :=
      if '0' ≤ c && c ≤ '9' then c.toNat - '0'.toNat
      else if 'a' ≤ c && c ≤ 'f' then c.toNat - 'a'.toNat + 10
      else if 'A' ≤ c && c ≤ 'F' then c.toNat - 'A'.toNat + 10
      else base
    if d < base then some d else none
  if text.isEmpty then none
  else
    text.foldl
      (fun acc? c =>
        match acc?, digit? c with
        | some acc, some d => some (base * acc + d)
        | _, _ => none)
      (some 0)

end CostAnalysis.Numeric
