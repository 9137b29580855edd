import CostAnalysis.Note
import CostAnalysis.Algebra.Formula.Basic
import CostAnalysis.Algebra.Summation

/-!
# Closed forms of formulas

`Formula.simplify` computes the polynomial that a formula stands for.
Summations are resolved from the inside out, and each resolution is recorded, so
that the derivation can be shown.  Beside the polynomial the formula itself is
kept with every summation replaced by its value.

A node whose coefficients overflow becomes an opaque fragment that quotes the
node.
-/

namespace CostAnalysis

/-- One summation that was replaced by its closed form. -/
structure SumResolution where
  /-- How many summations enclose it. -/
  depth : Nat
  /-- The length of the deepest chain of summations in the whole formula. -/
  levels : Nat
  index : String
  summation : String
  result : String

/-- The place of a summation in its chain, in words. -/
def SumResolution.label (r : SumResolution) : String :=
  if r.levels ≤ 1 then "Resolve summation"
  else if r.depth + 1 = r.levels then "Resolve innermost summation"
  else if r.depth = 0 then "Resolve outermost summation"
  else "Resolve intermediate summation"

/-- The closed form of a formula and how it was found. -/
structure Simplified where
  poly : Poly
  /-- The formula with every summation replaced by its closed form. -/
  substituted : Formula
  resolutions : List SumResolution
  notes : List Note

namespace Formula

/-- Replaces a result that overflowed by an opaque fragment quoting its
formula. -/
def guardOverflow (e : Formula) (r : Simplified) : Simplified :=
  if r.poly.hasOverflow then
    let text := e.text
    { poly := Poly.unknown text
      substituted := .unknown text
      resolutions := r.resolutions
      notes := r.notes ++ [⟨.unrecognizedExpression, "coefficient overflow in " ++ text⟩] }
  else r

/-- A result that nothing had to be done for. -/
def leaf (poly : Poly) (e : Formula) (notes : List Note) : Simplified :=
  { poly, substituted := e, resolutions := [], notes }

/-- Combines the results of two operands. -/
def combine (onPoly : Poly → Poly → Poly) (onFormula : Formula → Formula → Formula)
    (a b : Simplified) : Simplified where
  poly := onPoly a.poly b.poly
  substituted := onFormula a.substituted b.substituted
  resolutions := a.resolutions ++ b.resolutions
  notes := a.notes ++ b.notes

/-- Changes the result of a single operand. -/
def transform (onPoly : Poly → Poly) (onFormula : Formula → Formula) (a : Simplified) :
    Simplified :=
  { a with poly := onPoly a.poly, substituted := onFormula a.substituted }

/-- Resolves a summation whose body and bounds are reduced. -/
def resolveSum (levels depth : Nat) (index : String) (body start stop : Simplified) : Simplified :=
  let outcome := body.poly.sumOver index start.poly stop.poly
  let resolutions := body.resolutions ++ start.resolutions ++ stop.resolutions
  let notes := body.notes ++ start.notes ++ stop.notes
  if outcome.value.hasOverflow then
    { poly := outcome.value, substituted := zero, resolutions, notes }
  else
    let summation := (sum body.substituted index start.substituted stop.substituted).text
    { poly := outcome.value
      substituted := .resolved outcome.value
      resolutions :=
        resolutions ++ [⟨depth, levels, index, summation, outcome.value.compactText⟩]
      notes := notes ++ outcome.unresolved.map fun text => ⟨.unresolvedSummation, text⟩ }

mutual

/-- Reduces a formula at a depth below `levels` nested summations.  Notes may
repeat here. -/
def reduce (levels depth : Nat) : Formula → Simplified
  | .num v => guardOverflow (.num v) (leaf (Poly.constant v) (.num v) [])
  | .var name => leaf (Poly.var name) (.var name) []
  | .resolved p => guardOverflow (.resolved p) (leaf p (.resolved p) [])
  | .unknown t => leaf (Poly.unknown t) (.unknown t) [⟨.unrecognizedExpression, t⟩]
  | .plus ts =>
    guardOverflow (.plus ts) (reduceSum levels depth (leaf Poly.zero zero []) ts)
  | .times fs =>
    guardOverflow (.times fs) (reduceProduct levels depth (leaf Poly.one one []) fs)
  | .over a b =>
    guardOverflow (.over a b)
      (combine Poly.div div (reduce levels depth a) (reduce levels depth b))
  | .raised a b =>
    guardOverflow (.raised a b)
      (combine Poly.power pow (reduce levels depth a) (reduce levels depth b))
  | .minus a => guardOverflow (.minus a) (transform Poly.neg neg (reduce levels depth a))
  | .logOf a => guardOverflow (.logOf a) (transform Poly.log log (reduce levels depth a))
  | .minOf a b =>
    guardOverflow (.minOf a b)
      (combine Poly.minWith min (reduce levels depth a) (reduce levels depth b))
  | .maxOf a b =>
    guardOverflow (.maxOf a b)
      (combine Poly.maxWith max (reduce levels depth a) (reduce levels depth b))
  | .sumOver body index start stop =>
    guardOverflow (.sumOver body index start stop)
      (resolveSum levels depth index (reduce levels (depth + 1) body) (reduce levels depth start)
        (reduce levels depth stop))
termination_by structural e => e

/-- Adds the reduced terms of a sum to `acc`. -/
def reduceSum (levels depth : Nat) (acc : Simplified) : List Formula → Simplified
  | [] => acc
  | e :: es => reduceSum levels depth (combine Poly.add add acc (reduce levels depth e)) es
termination_by structural es => es

/-- Multiplies `acc` by the reduced factors of a product. -/
def reduceProduct (levels depth : Nat) (acc : Simplified) : List Formula → Simplified
  | [] => acc
  | e :: es => reduceProduct levels depth (combine Poly.mul mul acc (reduce levels depth e)) es
termination_by structural es => es

end

/-- The closed form of a formula. -/
def simplify (e : Formula) : Simplified :=
  let reduced := reduce e.sumDepth 0 e
  { reduced with notes := Note.logOf reduced.notes }

end Formula

end CostAnalysis
