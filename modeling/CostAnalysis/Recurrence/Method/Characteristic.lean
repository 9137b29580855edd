import CostAnalysis.Recurrence.Method.Iteration
import CostAnalysis.Algebra.Assoc

/-!
# Characteristic equations

A recurrence `T(n) = Σ c_j T(n - d_j) + f(n)` has the characteristic polynomial
`x^D - Σ c_j x^(D - d_j)`, where `D` is the greatest of the `d_j`.  Its only
positive root decides how the solutions grow, unless the work grows at least as
fast.
-/

namespace CostAnalysis.Characteristic

open Numeric

/-- The golden ratio. -/
def goldenRatio : Float := 1.618033988749895

/-- The terms of the characteristic polynomial as exponent and coefficient, the
highest first.

The coefficients are computed in unbounded integers.  In signed words of 64 bits
the result is the same: a coefficient of a recurrence is a word of 32 bits, and
only with more than `2^31` terms of one size could their sum leave the wider
word (`Characteristic.fitsSigned_of_mem_foldl`). -/
def coefficients (terms : List RecursiveTerm) : List (Nat × Int) :=
  let degree := match terms.map RecursiveTerm.amount with
    | [] => 1
    | a :: as => as.foldl Nat.max a
  let lower := terms.foldl
    (fun (sum : List (Nat × Int)) t =>
      Assoc.alter (degree - t.amount) (fun c? => some (c?.getD 0 - Int.ofNat t.coefficient)) sum)
    []
  (degree, 1) :: lower.reverse

/-- A power of `x`; nothing for the exponent zero. -/
def variableText (exponent : Nat) : String :=
  if exponent = 0 then "" else if exponent = 1 then "x" else "x^" ++ toString exponent

/-- A term without its sign. -/
def termText (exponent : Nat) (coefficient : Int) : String :=
  let power := variableText exponent
  if power.isEmpty then toString coefficient.natAbs
  else if coefficient.natAbs = 1 then power
  else toString coefficient.natAbs ++ power

/-- The text of the characteristic equation. -/
def equationText (terms : List RecursiveTerm) : String :=
  match coefficients terms with
  | [] => " = 0"
  | (e, c) :: rest =>
    rest.foldl
      (fun text (e, c) => text ++ (if c < 0 then " - " else " + ") ++ termText e c)
      (termText e c) ++ " = 0"

/-- The value of the characteristic polynomial. -/
def evaluate (terms : List RecursiveTerm) (x : Float) : Float :=
  (coefficients terms).foldl
    (fun sum (e, c) => sum + Double.ofInt c * Double.powInt x (wrapSigned 32 (Int.ofNat e)))
    (-0.0)

/-- Halves an interval around the root. -/
def bisectRoot (terms : List RecursiveTerm) : Nat → Float → Float → Float
  | 0, low, high => (low + high) / 2.0
  | steps + 1, low, high =>
    let mid := (low + high) / 2.0
    if evaluate terms mid < 0.0 then bisectRoot terms steps mid high
    else bisectRoot terms steps low mid

/-- The positive root, which lies between one and one more than the number of
calls. -/
def dominantRoot (terms : List RecursiveTerm) : Float :=
  let high := natDouble (RecursiveTerm.totalCoefficient terms) + 1.0
  if evaluate terms 1.0 ≥ 0.0 then 1.0 else bisectRoot terms 200 1.0 high

/-- Both roots of a quadratic characteristic polynomial. -/
def quadraticRoots? (terms : List RecursiveTerm) : Option (Float × Float) :=
  let cs := coefficients terms
  if (cs.head?.map Prod.fst) == some 2 then
    let coefficientOf (e : Nat) : Float :=
      match cs.find? fun c => c.1 == e with
      | some (_, c) => Double.ofInt c
      | none => 0.0
    let p := -(coefficientOf 1)
    let q := -(coefficientOf 0)
    let discriminant := Float.sqrt (p * p + 4.0 * q)
    some ((p + discriminant) / 2.0, (p - discriminant) / 2.0)
  else none

/-- Whether a root is the golden ratio, within a billionth. -/
def isGolden (root : Float) : Bool :=
  Float.abs (root - goldenRatio) < 1e-9

/-- The root in words. -/
def rootText (root : Float) : String :=
  if isGolden root then "(1+√5)/2 = φ ≈ " ++ shortDecimal root else shortDecimal root

/-- The growth of `r^n`. -/
def rootGrowth (root : Float) : String :=
  if isGolden root then "φ^n"
  else if Float.abs (root - Float.round root) < 1e-9 then
    let g : Growth :=
      { exponentials := [(.ofInt (Double.toSigned 64 (Float.round root)), Poly.var "n")] }
    g.text
  else shortDecimal root ++ "^n"

/-- How the work compares with `r^n`, in words and as a bound. -/
def compareWork (root : Float) (work : Work) : String × String :=
  let rate := work.growth.rate
  if work.isExponential && Float.abs (rate - Float.log root) < 1e-9 then
    ("f(n) = " ++ work.text ++ " matches r^n; resonance adds a factor n",
      thetaOf ((Growth.polylog "n" 1 0).mul work.growth).text)
  else if work.isExponential && rate > Float.log root then
    ("f(n) = " ++ work.text ++ " outgrows r^n", thetaOf work.growth.text)
  else
    ("f(n) = " ++ work.text ++ " is dominated by r^n", thetaOf (rootGrowth root))

/-- The steps about a quadratic polynomial. -/
def quadraticSteps (terms : List RecursiveTerm) : List String :=
  match quadraticRoots? terms with
  | some (high, low) =>
    ["Roots: x = " ++ shortDecimal high ++ ", x = " ++ shortDecimal low,
      "General solution: T(n) = α·" ++ shortDecimal high ++ "^n + β·(" ++ shortDecimal low ++ ")^n"]
  | none => []

/-- The last steps, the bound and the explanation. -/
def conclusion (terms : List RecursiveTerm) (work : Work) (root : Float) :
    List String × String × String :=
  match terms with
  | [t] =>
    if t.coefficient = 1 then
      let (growth, closed?) := Iteration.linearChain t.amount work
      (["r = 1: the homogeneous part is constant; the particular solution sums f(n)"] ++
        closed?.toList.map (fun closed => "Σ f = " ++ closed),
        thetaOf growth.text, "a root of 1 leaves only the accumulated work")
    else
      ([], thetaOf (Iteration.branchingGrowth t.coefficient t.amount work).text,
        "the homogeneous solution grows as r^n")
  | _ =>
    let (step, complexity) := compareWork root work
    ([step], complexity, "the dominant root decides the growth of every solution")

/-- Solves a recurrence by its characteristic equation. -/
def solve (r : Recurrence) : MethodResult :=
  if r.kind.isDivision then
    .notApplicable .characteristic
      "the characteristic equation needs constant shifts T(n-b), not T(n/b)"
  else if !r.work.known then
    .notApplicable .characteristic
      ("no particular solution is known for f(n) = " ++ r.work.text)
  else
    let root := dominantRoot r.terms
    let (last, complexity, explanation) := conclusion r.terms r.work root
    .solved .characteristic
      ([r.text, "Characteristic equation: " ++ equationText r.terms] ++
        quadraticSteps r.terms ++ ["Dominant root r = " ++ rootText root] ++ last ++
        ["T(n) = " ++ complexity])
      complexity
      explanation

end CostAnalysis.Characteristic
