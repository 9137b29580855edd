import CostAnalysis.Numeric.Double

/-!
# Decimal texts of binary64 numbers

Two ways to write a number in decimal: the fewest digits that read back as the
same number, and a fixed number of places rounded from the exact value.  The
digits are found by exact arithmetic on naturals; where they are put, and when
an exponent is written, is a choice of the place that writes the number and is
made by the layout functions at the end.
-/

namespace CostAnalysis.Numeric.Decimal

/-- `digits · 10 ^ exponent`. -/
structure Digits where
  digits : Nat
  exponent : Int

/-- Moves trailing zeros of the digits into the exponent. -/
def Digits.strip (d : Digits) : Digits :=
  go d.digits.log2 d
where
  /-- Strips at most `fuel + 1` zeros. -/
  go : Nat → Digits → Digits
    | 0, d => d
    | fuel + 1, d =>
      if d.digits ≠ 0 ∧ d.digits % 10 = 0 then go fuel ⟨d.digits / 10, d.exponent + 1⟩ else d

/-- The decimal digits of a natural, most significant first. -/
def digitText (n : Nat) : String :=
  String.ofList (Nat.toDigits 10 n)

/-- The number of decimal digits of a natural. -/
def digitCount (n : Nat) : Nat :=
  (Nat.toDigits 10 n).length

/-- The power of ten of the leading digit of `n / d`, for a positive
quotient. -/
def leadingPower (n d : Nat) : Int :=
  let guess : Int := Int.ofNat (digitCount n) - Int.ofNat (digitCount d)
  let atLeast (k : Int) : Bool :=
    if k < 0 then n * Nat.pow 10 k.natAbs ≥ d else n ≥ d * Nat.pow 10 k.natAbs
  if atLeast guess then guess else guess - 1

/-- The decimals with `places` significant digits next to `n / d` that the
predicate accepts, the nearer one first; an even last digit wins a tie. -/
def candidate? (accept : Digits → Bool) (n d : Nat) (places : Nat) : Option Digits :=
  let unit : Int := leadingPower n d - (Int.ofNat places - 1)
  let (n', d') :=
    if unit < 0 then (n * Nat.pow 10 unit.natAbs, d) else (n, d * Nat.pow 10 unit.natAbs)
  let below := n' / d'
  let rest := n' % d'
  let low : Digits := ⟨below, unit⟩
  let high : Digits := ⟨below + 1, unit⟩
  let lowFirst := 2 * rest < d' || (2 * rest == d' && below % 2 == 0)
  let ordered := if lowFirst then [low, high] else [high, low]
  ordered.find? accept

/-- The decimal of fewest digits, at most 17, that reads back as the positive
number `x`, whose exact value is `n / d`. -/
def shortestOf (x : Float) (n d : Nat) : Digits :=
  let reads (c : Digits) : Bool :=
    (Double.ofDecimal c.digits c.exponent).toBits == x.toBits
  match (List.range 17).findSome? fun k => candidate? reads n d (k + 1) with
  | some digits => digits.strip
  | none => ⟨0, 0⟩

/-- Significand and exponent as a fraction of naturals. -/
def fractionOf (significand : Nat) (exponent : Int) : Nat × Nat :=
  if exponent < 0 then (significand, twoTo exponent.natAbs)
  else (significand * twoTo exponent.natAbs, 1)

/-- The digits of a positive finite number. -/
def shortest (x : Float) (significand : Nat) (exponent : Int) : Digits :=
  let (n, d) := fractionOf significand exponent
  shortestOf x n d

/-- `count` zeros. -/
def zeros (count : Nat) : String :=
  String.ofList (List.replicate count '0')

/-- Writes the digits positionally, without a fraction if the number is
whole. -/
def Digits.positional (d : Digits) : String :=
  let text := digitText d.digits
  if 0 ≤ d.exponent then text ++ zeros d.exponent.toNat
  else
    let places := d.exponent.natAbs
    if text.length ≤ places then "0." ++ zeros (places - text.length) ++ text
    else
      let whole := text.toList.take (text.length - places)
      let fraction := text.toList.drop (text.length - places)
      String.ofList whole ++ "." ++ String.ofList fraction

/-- The shortest positional text of a number: `1`, `0.25`, `-0.00001`, `inf`,
`NaN`. -/
def plain (x : Float) : String :=
  match Double.read x with
  | .nan => "NaN"
  | .infinite negative => if negative then "-inf" else "inf"
  | .finite negative significand exponent =>
    let sign := if negative then "-" else ""
    if significand = 0 then sign ++ "0"
    else sign ++ (shortest (Float.abs x) significand exponent).positional

/-- The shortest positional text with a fraction in every case: `1.0`,
`0.25`. -/
def withFraction (x : Float) : String :=
  let text := plain x
  if text.toList.contains '.' || !Double.isFinite x then text else text ++ ".0"

/-- The shortest text with a fraction or an exponent: positional from `1e-5` up
to sixteen digits before the point, and `d.ddde±k` beyond. -/
def withExponent (x : Float) : String :=
  match Double.read x with
  | .nan => "NaN"
  | .infinite negative => if negative then "-inf" else "inf"
  | .finite negative significand exponent =>
    let sign := if negative then "-" else ""
    if significand = 0 then sign ++ "0.0"
    else
      let d := shortest (Float.abs x) significand exponent
      let text := digitText d.digits
      let point : Int := Int.ofNat text.length + d.exponent
      if -5 < point ∧ point ≤ 16 then
        if 0 ≤ d.exponent then sign ++ d.positional ++ ".0" else sign ++ d.positional
      else
        let mantissa :=
          match text.toList with
          | [] => ""
          | [c] => String.ofList [c]
          | c :: rest => String.ofList (c :: '.' :: rest)
        sign ++ mantissa ++ "e" ++ toString (point - 1)

/-- A number with a fixed number of places, rounded from its exact value, a tie
to the even digit.  The sign of a negative number stays, also where only zeros
are left. -/
def fixed (places : Nat) (x : Float) : String :=
  match Double.read x with
  | .nan => "NaN"
  | .infinite negative => if negative then "-inf" else "inf"
  | .finite negative significand exponent =>
    let (n, d) := fractionOf significand exponent
    let scaled := Double.roundDiv (n * Nat.pow 10 places) d
    let text := digitText scaled
    let padded := zeros (places + 1 - text.length) ++ text
    let whole := padded.toList.take (padded.length - places)
    let fraction := padded.toList.drop (padded.length - places)
    let sign := if negative then "-" else ""
    if places = 0 then sign ++ String.ofList whole
    else sign ++ String.ofList whole ++ "." ++ String.ofList fraction

end CostAnalysis.Numeric.Decimal
