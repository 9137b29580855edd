import CostAnalysis.Numeric.Double
import CostAnalysis.Text.Blank

/-!
# Scalars

The coefficients of every symbolic cost are exact rational numbers whose parts
fit 128-bit words, or the mark `overflow` that is left where a result did not
fit.

**Overflow absorbs.**  No operation on `overflow` gives a rational number again,
so a computation is checked once, at its end.  What is exact is really exact:
`Scalar.exact q` stands for `q`, and an operation on exact scalars gives the
exact result or `overflow`, never another rational number.

**When a result fits.**  A product fits if its lowest terms do.  A sum is formed
over the least common denominator, and it is the parts of that form that have to
fit: the sum of two scalars may overflow although its lowest terms would not.

## Main definitions

* `Scalar`, with `Scalar.add?`, `Scalar.mul?` (undefined where the result does
  not fit) and the total operations `+`, `-`, `*` built on them
* `Scalar.ofFraction?`, `Scalar.read?`, `Scalar.ofDouble?`: scalars from outside
* `Scalar.cmp`: the order, in which `overflow` is the greatest element
-/

namespace CostAnalysis

open Numeric

/-- A rational number, or the mark of a result that outgrew its words. -/
inductive Scalar where
  | exact (value : Rat)
  | overflow
deriving DecidableEq

namespace Scalar

/-- A part of a scalar may be any integer of magnitude below `2 ^ 127`. -/
def fits (z : Int) : Bool :=
  z.natAbs < twoTo 127

/-- The scalar of an integer. -/
def ofInt (z : Int) : Scalar :=
  .exact (Rat.ofInt z)

/-- The scalar of a natural. -/
def ofNat (n : Nat) : Scalar :=
  ofInt (Int.ofNat n)

instance : Inhabited Scalar := ⟨ofInt 0⟩

instance (n : Nat) : OfNat Scalar n := ⟨ofNat n⟩

/-- One half. -/
def half : Scalar :=
  .exact (mkRat 1 2)

/-- The quotient of two integers; undefined if the divisor is zero or a part
does not fit. -/
def ofFraction? (num den : Int) : Option Scalar :=
  if den = 0 || !fits num || !fits den then none
  else some (.exact (Rat.divInt num den))

/-- The numerator in lowest terms; that of `overflow` is `1`. -/
def numer : Scalar → Int
  | .exact q => q.num
  | .overflow => 1

/-- The positive denominator in lowest terms; that of `overflow` is `0`. -/
def denom : Scalar → Nat
  | .exact q => q.den
  | .overflow => 0

/-- Whether the scalar is the mark of a result that did not fit. -/
def isOverflow : Scalar → Bool
  | .exact _ => false
  | .overflow => true

/-- Whether the scalar is zero. -/
def isZero (x : Scalar) : Bool :=
  x.numer == 0

/-- Whether the scalar is one. -/
def isOne (x : Scalar) : Bool :=
  x.numer == 1 && x.denom == 1

/-- Whether the scalar is an integer. -/
def isInteger (x : Scalar) : Bool :=
  x.denom == 1

/-- Whether the scalar is below zero. -/
def isNegative (x : Scalar) : Bool :=
  x.numer < 0

/-- The integer that the scalar is, if it is one. -/
def toInt? (x : Scalar) : Option Int :=
  if x.isInteger then some x.numer else none

/-! ## Arithmetic -/

/-- The sum, where its parts over the least common denominator fit. -/
def add? : Scalar → Scalar → Option Scalar
  | .exact x, .exact y =>
    let den := Nat.lcm x.den y.den
    let left := x.num * Int.ofNat (den / x.den)
    let right := y.num * Int.ofNat (den / y.den)
    if fits (Int.ofNat den) && fitsSigned 128 left && fitsSigned 128 right then
      ofFraction? (left + right) (Int.ofNat den)
    else none
  | _, _ => none

/-- The product, where its parts fit.  Each numerator is first reduced against
the denominator of the other factor. -/
def mul? : Scalar → Scalar → Option Scalar
  | .exact x, .exact y =>
    let g := Int.gcd x.num (Int.ofNat y.den)
    let h := Int.gcd y.num (Int.ofNat x.den)
    ofFraction? ((x.num / Int.ofNat g) * (y.num / Int.ofNat h))
      (Int.ofNat (x.den / h) * Int.ofNat (y.den / g))
  | _, _ => none

/-- The sum, or `overflow`. -/
def add (x y : Scalar) : Scalar :=
  (add? x y).getD .overflow

/-- The product, or `overflow`. -/
def mul (x y : Scalar) : Scalar :=
  (mul? x y).getD .overflow

/-- The opposite, or `overflow`. -/
def neg : Scalar → Scalar
  | .exact x => if fits x.num then .exact (-x) else .overflow
  | .overflow => .overflow

instance : Add Scalar := ⟨add⟩

instance : Mul Scalar := ⟨mul⟩

instance : Neg Scalar := ⟨neg⟩

instance : Sub Scalar := ⟨fun x y => x + -y⟩

/-- The absolute value. -/
def abs (x : Scalar) : Scalar :=
  if x.isNegative then -x else x

/-- The reciprocal; undefined for zero. -/
def recip? : Scalar → Option Scalar
  | .overflow => some .overflow
  | .exact x => ofFraction? (Int.ofNat x.den) x.num

/-- The quotient; undefined for a zero divisor. -/
def div? (x y : Scalar) : Option Scalar :=
  y.recip?.map fun r => x * r

/-- `acc · base ^ k`.  Once the product overflows no further factor can change
it. -/
def powFrom (base acc : Scalar) : Nat → Scalar
  | 0 => acc
  | k + 1 => if acc.isOverflow then .overflow else powFrom base (acc * base) k

/-- An integral power; undefined for a negative power of zero. -/
def pow? (x : Scalar) (k : Int) : Option Scalar :=
  if k < 0 then x.recip?.map fun r => powFrom r 1 k.natAbs
  else some (powFrom x 1 k.natAbs)

/-- The greatest common divisor of two integers as a signed 128-bit word; the
one value that such a word cannot hold, `2 ^ 127`, counts as one. -/
def gcdWord (a b : Int) : Int :=
  let g := Int.ofNat (Int.gcd a b)
  if fits g then g else 1

/-- The greatest common divisor of two fractions: that of the numerators over
the least common multiple of the denominators.  It is one where that does not
fit. -/
def gcd : Scalar → Scalar → Scalar
  | .exact x, .exact y =>
    let den := Int.ofNat (Nat.lcm x.den y.den)
    if fits den then (ofFraction? (gcdWord x.num y.num) den).getD 1 else 1
  | _, _ => 1

/-! ## Order -/

/-- The binary64 number of a scalar: the quotient of its rounded parts. -/
def toDouble (x : Scalar) : Float :=
  Double.ofInt x.numer / Double.ofInt (Int.ofNat x.denom)

/-- Compares two rationals.  Where a cross product outgrows its word the rounded
quotients decide, and the parts only if these agree. -/
def cmpExact (x y : Rat) : Ordering :=
  let left := x.num * Int.ofNat y.den
  let right := y.num * Int.ofNat x.den
  if fitsSigned 128 left && fitsSigned 128 right then compare left right
  else
    let dx := (Scalar.exact x).toDouble
    let dy := (Scalar.exact y).toDouble
    if dx < dy then .lt
    else if dy < dx then .gt
    else (compare x.num y.num).then (compare x.den y.den)

/-- The order of scalars, `overflow` last. -/
def cmp : Scalar → Scalar → Ordering
  | .overflow, .overflow => .eq
  | .overflow, .exact _ => .gt
  | .exact _, .overflow => .lt
  | .exact x, .exact y => cmpExact x y

instance : Ord Scalar := ⟨cmp⟩

/-- The smaller of two scalars. -/
def least (x y : Scalar) : Scalar :=
  if cmp x y == .gt then y else x

/-- The greater of two scalars. -/
def greatest (x y : Scalar) : Scalar :=
  if cmp x y == .gt then x else y

/-! ## Texts and decimals -/

/-- The text of a scalar: `7`, `-3/4`, `overflow`. -/
def text : Scalar → String
  | .overflow => "overflow"
  | .exact q => if q.den = 1 then toString q.num else toString q.num ++ "/" ++ toString q.den

instance : ToString Scalar := ⟨text⟩

/-- Reads a decimal with a fraction, given the texts on both sides of the
point. -/
def readDecimal? (whole fraction : List Char) : Option Scalar :=
  if fraction.isEmpty || 18 < fraction.length || !fraction.all Text.isAsciiDigit then none
  else do
    let integral ← if whole.isEmpty || whole == ['-'] then some 0 else readSigned 128 whole
    let decimals ← readInt fraction
    let scale := Int.ofNat (Nat.pow 10 fraction.length)
    let shifted := Int.ofNat integral.natAbs * scale
    if !fits (Int.ofNat integral.natAbs) || !fits shifted || !fits (shifted + decimals) then none
    else
      let magnitude := shifted + decimals
      ofFraction? (if whole.head? == some '-' then -magnitude else magnitude) scale

/-- Reads `12`, `-3`, `0.25` or `3/4`. -/
def read? (text : List Char) : Option Scalar :=
  let trimmed := Text.trim text
  match Text.splitFirst '/' trimmed with
  | some (num, den) => do
    let n ← readSigned 128 (Text.trim num)
    let d ← readSigned 128 (Text.trim den)
    ofFraction? n d
  | none =>
    match Text.splitFirst '.' trimmed with
    | some (whole, fraction) => readDecimal? whole fraction
    | none => ((readSigned 128 trimmed).filter fits).map ofInt

/-- The fraction over `10 ^ 12` nearest to a finite number; a half is rounded
away from zero. -/
def ofDouble? (x : Float) : Option Scalar :=
  if Double.isFinite x then
    let scale := Nat.pow 10 12
    ofFraction? (Double.toSigned 128 (Float.round (x * Double.ofQuotient scale 1)))
      (Int.ofNat scale)
  else none

end Scalar

end CostAnalysis
