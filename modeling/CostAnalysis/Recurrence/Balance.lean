import CostAnalysis.Numeric.Decimal
import CostAnalysis.Recurrence.Derivation

/-!
# Leaves against work

A recurrence `T(n) = aT(n/b) + f(n)` unfolds into a tree with `n^(log_b a)`
leaves.  Whether the leaves or the work at the root dominate is decided by
comparing the exponent `log_b a` with the degree of `f`.  The exponents are
compared as floating-point numbers, within a tolerance.
-/

namespace CostAnalysis

open Numeric

/-- A number with at most four places, without trailing zeros. -/
def shortDecimal (x : Float) : String :=
  let text := (Decimal.fixed 4 x).toList
  let text := Text.dropRightWhile (· == '.') (Text.dropRightWhile (· == '0') text)
  if text == ['-', '0'] then "0" else String.ofList text

/-- The fraction with a denominator up to six that a number is, within a
billionth. -/
def smallFraction? (x : Float) : Option Scalar :=
  [1, 2, 3, 4, 5, 6].findSome? fun (d : Nat) =>
    let den := Double.ofInt (Int.ofNat d)
    let num := Float.round (x * den)
    if Float.abs (num / den - x) < 1e-9 then
      Scalar.ofFraction? (Double.toSigned 128 num) (Int.ofNat d)
    else none

/-- The class of growth of a power of `n`. -/
def powerText (exponent : Float) : String :=
  match smallFraction? exponent with
  | some degree => (Growth.polylog "n" degree 0).text
  | none => "n^" ++ shortDecimal exponent

/-- A natural number in floating point. -/
def natDouble (n : Nat) : Float :=
  Double.ofInt (Int.ofNat n)

/-- The exponent `log_b a` of the number of leaves. -/
def criticalExponent (a b : Nat) : Float :=
  Float.log (natDouble a) / Float.log (natDouble b)

/-- The part of the tree whose cost dominates. -/
inductive Dominance where
  | leaves
  /-- All levels cost the same. -/
  | levels
  | root
deriving DecidableEq

/-- The number of the case in the master theorem. -/
def Dominance.number : Dominance → Nat
  | .leaves => 1
  | .levels => 2
  | .root => 3

/-- The comparison of leaves and work. -/
structure Balance where
  dominance : Dominance
  critical : Float
  complexity : String
  /-- The comparison in words. -/
  comparison : String

namespace Balance

/-- A comparison of the degree of the work with the critical exponent. -/
def comparisonText (k : Float) (sign : String) (a b : Nat) (critical : Float) : String :=
  "k = " ++ shortDecimal k ++ " " ++ sign ++ " log_" ++ toString b ++ "(" ++ toString a ++ ") = " ++
    shortDecimal critical

/-- Compares the leaves of `aT(n/b)` with the work; nothing can be said if its
growth is unknown. -/
def of? (a b : Nat) (work : Work) (epsilon : Float) : Option Balance :=
  if !work.known then none
  else
    let critical := criticalExponent a b
    let leaves := powerText critical
    if work.isExponential then
      some {
        dominance := .root
        critical
        complexity := thetaOf work.growth.text
        comparison := "f(n) = " ++ work.text ++ " is exponential and dominates " ++ leaves }
    else
      let k := work.growth.degree.toDouble
      if k < critical - epsilon then
        some {
          dominance := .leaves
          critical
          complexity := thetaOf leaves
          comparison := comparisonText k "<" a b critical }
      else if Float.abs (k - critical) ≤ epsilon then
        some {
          dominance := .levels
          critical
          complexity :=
            thetaOf (Growth.polylog "n" work.growth.degree (work.growth.logCount + 1)).text
          comparison := comparisonText k "≈" a b critical }
      else
        some {
          dominance := .root
          critical
          complexity := thetaOf work.growth.text
          comparison := comparisonText k ">" a b critical }

/-- The ratio `a/b^k` of the costs of a level and the level above it. -/
def levelRatio (a b : Nat) (k : Float) : Float :=
  natDouble a / Float.pow (natDouble b) k

end Balance

end CostAnalysis
