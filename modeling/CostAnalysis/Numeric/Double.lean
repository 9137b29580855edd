import CostAnalysis.Numeric.Word

/-!
# Exact readings of binary64 numbers

Logarithms, powers and the thresholds that compare them are computed in
binary64.  This module connects those numbers with exact arithmetic: a finite
number is decoded to a significand and a power of two, a quotient of naturals is
rounded to the nearest number (a tie goes to the even significand), and numbers
are ordered by the total order of their encodings, in which `-0.0` comes before
`0.0`.
-/

namespace CostAnalysis.Numeric.Double

/-- The exact content of an encoding. -/
inductive Reading where
  /-- The number `± significand · 2 ^ exponent`. -/
  | finite (negative : Bool) (significand : Nat) (exponent : Int)
  | infinite (negative : Bool)
  | nan

/-- Whether the sign bit is set. -/
def isNegative (x : Float) : Bool :=
  x.toBits.toNat ≥ twoTo 63

/-- The encoding without its sign bit. -/
def magnitudeBits (x : Float) : Nat :=
  x.toBits.toNat % twoTo 63

/-- Decodes a number. -/
def read (x : Float) : Reading :=
  let biased := magnitudeBits x / twoTo 52
  let fraction := magnitudeBits x % twoTo 52
  if biased = 2047 then
    if fraction = 0 then .infinite (isNegative x) else .nan
  else if biased = 0 then .finite (isNegative x) fraction (-1074)
  else .finite (isNegative x) (twoTo 52 + fraction) (Int.ofNat biased - 1075)

/-- The quotient of naturals `n / d` rounded to an integer, a tie to the even
neighbour. -/
def roundDiv (n d : Nat) : Nat :=
  let q := n / d
  let r := n % d
  if 2 * r < d then q else if d < 2 * r then q + 1 else if q % 2 = 0 then q else q + 1

/-- `n · 2 ^ (-e) / d`, the quotient measured in units of `2 ^ e`, as a fraction
of naturals. -/
def inUnits (n d : Nat) (e : Int) : Nat × Nat :=
  if e < 0 then (n * twoTo e.natAbs, d) else (n, d * twoTo e.natAbs)

/-- The number nearest to the quotient `n / d`, a tie to the even significand;
quotients beyond the largest number give infinity. -/
def ofQuotient (n d : Nat) : Float :=
  if n = 0 ∨ d = 0 then Float.ofBits 0
  else
    let estimate : Int := Int.ofNat n.log2 - Int.ofNat d.log2 - 53
    let low := if estimate < -1074 then -1074 else estimate
    let (n₀, d₀) := inUnits n d low
    let unit := if n₀ / d₀ ≥ twoTo 53 then low + 1 else low
    let (n₁, d₁) := inUnits n d unit
    let significand := roundDiv n₁ d₁
    let bits :=
      if significand < twoTo 52 then significand
      else (unit + 1075).toNat * twoTo 52 + (significand - twoTo 52)
    let infinity := 2047 * twoTo 52
    Float.ofBits (UInt64.ofNat (if bits < infinity then bits else infinity))

/-- The number nearest to an integer. -/
def ofInt (z : Int) : Float :=
  if z < 0 then -(ofQuotient z.natAbs 1) else ofQuotient z.natAbs 1

/-- The number nearest to the decimal `digits · 10 ^ exponent`. -/
def ofDecimal (digits : Nat) (exponent : Int) : Float :=
  if exponent < 0 then ofQuotient digits (Nat.pow 10 exponent.natAbs)
  else ofQuotient (digits * Nat.pow 10 exponent.natAbs) 1

/-- Discards the fraction of a number and clamps the rest to a signed word; no
number gives zero. -/
def toSigned (bits : Nat) (x : Float) : Int :=
  match read x with
  | .nan => 0
  | .infinite negative =>
    if negative then -(Int.ofNat (twoTo (bits - 1))) else Int.ofNat (twoTo (bits - 1)) - 1
  | .finite negative significand exponent =>
    let whole :=
      if exponent < 0 then significand / twoTo exponent.natAbs
      else significand * twoTo exponent.natAbs
    saturate bits (if negative then -(Int.ofNat whole) else Int.ofNat whole)

/-- Whether the number is neither infinite nor the result of an undefined
operation. -/
def isFinite (x : Float) : Bool :=
  match read x with
  | .finite _ _ _ => true
  | _ => false

/-- The rank of a number in the total order of encodings. -/
def rank (x : Float) : Int :=
  if isNegative x then -1 - Int.ofNat (magnitudeBits x) else Int.ofNat (magnitudeBits x)

/-- The total order of encodings. -/
def totalCompare (x y : Float) : Ordering :=
  compare (rank x) (rank y)

/-- The larger of two numbers; the other one if one is undefined. -/
def larger (x y : Float) : Float :=
  if x < y || x.isNaN then y else x

/-- `x` to an integral power by repeated squaring, least significant bit of the
exponent first. -/
def powNat (x : Float) (k : Nat) : Float :=
  go k x k 1.0
where
  /-- Multiplies `acc` by the squares of `x` that the bits of `k` select. -/
  go : Nat → Float → Nat → Float → Float
    | 0, _, _, acc => acc
    | fuel + 1, x, k, acc =>
      let acc := if k % 2 = 1 then acc * x else acc
      if k / 2 = 0 then acc else go fuel (x * x) (k / 2) acc

/-- `x` to an integral power; a negative power is the reciprocal of the positive
one. -/
def powInt (x : Float) (k : Int) : Float :=
  if k < 0 then 1.0 / powNat x k.natAbs else powNat x k.natAbs

end CostAnalysis.Numeric.Double
