import CostAnalysis.Algebra.Poly.Power

/-!
# Growth classes

The growth of a polynomial is that of its dominant term.  Terms are ranked by
the rate of their exponential factors, then by the total degree in the
problem-size variables, then by the number of logarithmic factors: a logarithm
counts as degree zero but wins ties.

A polynomial with opaque fragments has no growth class that could be named, and
its text stands in for one.
-/

namespace CostAnalysis

open Numeric

/-- A product of powers, logarithms and exponentials. -/
structure Growth where
  /-- The power of each variable. -/
  degrees : List (String × Scalar) := []
  /-- The power of the logarithm of each variable. -/
  logs : List (String × Scalar) := []
  /-- Exponential factors, base and exponent. -/
  exponentials : List (Scalar × Poly) := []
  /-- The text that stands for an expression with opaque fragments. -/
  verbatim : Option String := none

namespace Growth

/-- The class of constants. -/
def constant : Growth := {}

instance : Inhabited Growth := ⟨constant⟩

/-- `var ^ degree · (log var) ^ logs`. -/
def polylog (var : String) (degree logs : Scalar) : Growth where
  degrees := if degree.isZero then [] else [(var, degree)]
  logs := if logs.isZero then [] else [(var, logs)]

/-- The class of a text with opaque fragments. -/
def ofText (text : String) : Growth :=
  { verbatim := some text }

/-- Whether the class is that of constants. -/
def isConstant (g : Growth) : Bool :=
  g.degrees.isEmpty && g.logs.isEmpty && g.exponentials.isEmpty && g.verbatim.isNone

/-- The total degree. -/
def degree (g : Growth) : Scalar :=
  g.degrees.foldl (fun acc d => acc + d.2) 0

/-- The total power of logarithms. -/
def logCount (g : Growth) : Scalar :=
  g.logs.foldl (fun acc l => acc + l.2) 0

/-- The greatest coefficient in an exponent, constants aside, and at least
zero. -/
def leadingCoefficient (exponent : Poly) : Float :=
  (exponent.terms.filter fun t => !t.1.isOne).foldl
    (fun acc t => Double.larger acc t.2.toDouble) 0.0

/-- The rate of the exponential factors: the sum of
`log base · leading coefficient`.  The empty sum is `-0.0`, so that a factor of
rate `0.0` still counts for more than none. -/
def rate (g : Growth) : Float :=
  g.exponentials.foldl
    (fun acc (base, exponent) => acc + Float.log base.toDouble * leadingCoefficient exponent)
    (-0.0)

/-- The order of growth classes. -/
def cmp (g h : Growth) : Ordering :=
  (Double.totalCompare g.rate h.rate).then
    ((Double.totalCompare g.degree.toDouble h.degree.toDouble).then (g.logCount.cmp h.logCount))

/-- Adds the powers of two classes, and drops those that become zero. -/
def addPowers (xs ys : List (String × Scalar)) : List (String × Scalar) :=
  (ys.foldl
    (fun acc (var, d) => Assoc.alter var (fun old => some (old.getD 0 + d)) acc) xs).filter
      fun entry => !entry.2.isZero

/-- The class of a product. -/
def mul (g h : Growth) : Growth where
  degrees := addPowers g.degrees h.degrees
  logs := addPowers g.logs h.logs
  exponentials := g.exponentials ++ h.exponentials
  verbatim := g.verbatim <|> h.verbatim

/-- Multiplies the powers of variables and logarithms by a scalar. -/
def scaled (g : Growth) (factor : Scalar) : Growth :=
  { g with
    degrees := g.degrees.map fun (var, d) => (var, d * factor)
    logs := (g.logs.map fun (var, l) => (var, l * factor)).filter fun entry => !entry.2.isZero }

/-- The last variable of greatest degree. -/
def dominantVar? (g : Growth) : Option String :=
  (Assoc.lastGreatest? (fun a b => Scalar.cmp a.2 b.2) g.degrees).map Prod.fst

/-- The dominant class among terms with their coefficients: the last greatest
one of those that are not negative, or of all terms if every one is. -/
def dominant (terms : List (Scalar × Growth)) : Growth :=
  let positive := terms.filter fun t => !t.1.isNegative
  let candidates := if positive.isEmpty then terms else positive
  (Assoc.lastGreatest? cmp (candidates.map Prod.snd)).getD constant

/-- The class of the logarithm of something of class `inner`, to a power. -/
def ofLog (inner : Growth) (exponent : Int) : Growth :=
  match inner.dominantVar? with
  | some var =>
    if Scalar.cmp inner.degree 0 == .gt then polylog var 0 (.ofInt exponent) else constant
  | none => constant

/-- The class of an exponential to a power; it only grows if the base is above
one and the exponent depends on the problem size. -/
def ofExp (vars : List String) (base : Scalar) (exponent : Poly) (times : Int) : Growth :=
  let depends := exponent.freeVars.any fun v => vars.contains v
  if depends && base.toDouble > 1.0 then
    { exponentials := [(base, exponent.scale (.ofInt times))] }
  else constant

mutual

/-- The class of a polynomial over the given problem-size variables. -/
def ofPoly (vars : List String) : Poly → Growth
  | .ofTerms ts =>
    if (Poly.ofTerms ts).hasOpaque then ofText (Poly.ofTerms ts).compactText
    else dominant (ofTerms vars ts)
termination_by structural p => p

/-- The classes of terms, with their coefficients. -/
def ofTerms (vars : List String) : List (Monomial × Scalar) → List (Scalar × Growth)
  | [] => []
  | (m, c) :: ts => (c, ofMonomial vars m) :: ofTerms vars ts
termination_by structural ts => ts

/-- The class of a monomial. -/
def ofMonomial (vars : List String) : Monomial → Growth
  | .ofFactors fs => ofFactors vars constant fs
termination_by structural m => m

/-- Multiplies `acc` by the class of each factor. -/
def ofFactors (vars : List String) (acc : Growth) : List (Atom × Int) → Growth
  | [] => acc
  | (a, e) :: fs => ofFactors vars (acc.mul (ofAtom vars e a)) fs
termination_by structural fs => fs

/-- The class of a power of an atom. -/
def ofAtom (vars : List String) (e : Int) : Atom → Growth
  | .var name => if vars.contains name then polylog name (.ofInt e) 0 else constant
  | .log p => ofLog (ofPoly vars p) e
  | .exp base p => ofExp vars base p e
  | .power p s => (ofPoly vars p).scaled (s * .ofInt e)
  | .min p q =>
    let (g, h) := (ofPoly vars p, ofPoly vars q)
    if g.cmp h == .gt then h else g
  | .max p q =>
    let (g, h) := (ofPoly vars p, ofPoly vars q)
    if g.cmp h == .lt then h else g
  | .unresolved t => ofText t
  | .unknown t => ofText t
termination_by structural a => a

end

/-! ## Text -/

/-- `var`, `var^2`, `var^(1/2)`. -/
def powerText (var : String) (degree : Scalar) : String :=
  if degree.isOne then var
  else if degree.isInteger && !degree.isNegative then var ++ "^" ++ degree.text
  else var ++ "^" ++ parenthesized degree.text

/-- `log var`, `log^2 var`, `log^(1/2) var`. -/
def logText (var : String) (count : Scalar) : String :=
  if count.isOne then "log " ++ var
  else if count.isInteger then "log^" ++ count.text ++ " " ++ var
  else "log^" ++ parenthesized count.text ++ " " ++ var

/-- `2^n`, `3^(n/2)`. -/
def exponentialText (base : Scalar) (exponent : Poly) : String :=
  let text := exponent.compactText
  base.text ++ "^" ++ (if exponent.precedence ≥ 4 then text else parenthesized text)

/-- The text of a class: powers and exponentials, then logarithms. -/
def text (g : Growth) : String :=
  match g.verbatim with
  | some text => text
  | none =>
    let factors := g.degrees.map (fun (var, d) => powerText var d) ++
      g.exponentials.map (fun (base, exponent) => exponentialText base exponent)
    let logs := g.logs.map fun (var, count) => logText var count
    match factors, logs with
    | [], [] => "1"
    | _ :: _, [] => "·".intercalate factors
    | [], _ :: _ => "·".intercalate logs
    | _ :: _, _ :: _ => "·".intercalate factors ++ " " ++ "·".intercalate logs

instance : ToString Growth := ⟨text⟩

/-- The class as an upper bound. -/
def bigO (g : Growth) : String := "O(" ++ g.text ++ ")"

/-- The class as a lower bound. -/
def omega (g : Growth) : String := "Ω(" ++ g.text ++ ")"

/-- The class as a tight bound. -/
def theta (g : Growth) : String := "Θ(" ++ g.text ++ ")"

end Growth

end CostAnalysis
