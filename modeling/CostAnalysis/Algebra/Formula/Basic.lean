import CostAnalysis.Algebra.Poly.Power

/-!
# Formulas

A formula is a cost as it is first written down: sums are still open, minima and
maxima are kept literally, and fragments that nothing is known about stand
beside the rest.  `Formula` is the raw tree; the functions `add`, `mul`, `div`,
... below build trees with the small simplifications that keep texts readable,
such as folding constants and flattening nested sums by one level.

The closed form of a formula is a polynomial; `Formula.resolved` embeds a
polynomial back into a formula, which is how a summation is replaced by its
value.
-/

namespace CostAnalysis

/-- A symbolic cost. -/
inductive Formula where
  | num (value : Scalar)
  | var (name : String)
  /-- A fragment that could not be interpreted, kept verbatim. -/
  | unknown (text : String)
  | plus (terms : List Formula)
  | times (factors : List Formula)
  | over (numerator denominator : Formula)
  | raised (base exponent : Formula)
  | minus (operand : Formula)
  | logOf (operand : Formula)
  | minOf (left right : Formula)
  | maxOf (left right : Formula)
  /-- The sum of `body` over the integers `index = start, ..., stop`. -/
  | sumOver (body : Formula) (index : String) (start stop : Formula)
  /-- A part that is already in closed form. -/
  | resolved (poly : Poly)

namespace Formula

instance : Inhabited Formula := ⟨.num 0⟩

mutual

/-- Structural equality. -/
def beq : Formula → Formula → Bool
  | .num v, .num w => v == w
  | .var a, .var b => a == b
  | .unknown a, .unknown b => a == b
  | .plus ts, .plus us => beqList ts us
  | .times ts, .times us => beqList ts us
  | .over a b, .over c d => beq a c && beq b d
  | .raised a b, .raised c d => beq a c && beq b d
  | .minus a, .minus b => beq a b
  | .logOf a, .logOf b => beq a b
  | .minOf a b, .minOf c d => beq a c && beq b d
  | .maxOf a b, .maxOf c d => beq a c && beq b d
  | .sumOver a i s t, .sumOver b j s' t' => beq a b && i == j && beq s s' && beq t t'
  | .resolved p, .resolved q => p == q
  | _, _ => false
termination_by structural e => e

/-- Structural equality of lists. -/
def beqList : List Formula → List Formula → Bool
  | [], [] => true
  | a :: as, b :: bs => beq a b && beqList as bs
  | _, _ => false
termination_by structural es => es

end

instance : BEq Formula := ⟨beq⟩

/-- The formula zero. -/
def zero : Formula := .num 0

/-- The formula one. -/
def one : Formula := .num 1

/-- An integer. -/
def int (z : Int) : Formula := .num (.ofInt z)

/-- The number that a formula plainly is. -/
def asNum? : Formula → Option Scalar
  | .num v => some v
  | .resolved p => p.asConstant?
  | _ => none

/-- Whether the formula plainly is zero. -/
def isZero (e : Formula) : Bool :=
  e.asNum?.any Scalar.isZero

/-- Whether the formula plainly is one. -/
def isOne (e : Formula) : Bool :=
  e.asNum?.any Scalar.isOne

/-! ## Constructors that simplify -/

/-- Takes the operands of a sum or product: a number is combined with the
constant so far if the result fits, anything else is kept in place. -/
def absorb (combine : Scalar → Scalar → Option Scalar) (constant : Scalar) :
    List Formula → Scalar × List Formula
  | [] => (constant, [])
  | e :: es =>
    match e.asNum?.bind (combine constant) with
    | some folded => absorb combine folded es
    | none =>
      let (total, kept) := absorb combine constant es
      (total, e :: kept)

/-- The operands of a sum; a formula that is no sum is its only operand. -/
def addends : Formula → List Formula
  | .plus ts => ts
  | e => [e]

/-- The operands of a product; a formula that is no product is its only
operand. -/
def multiplicands : Formula → List Formula
  | .times fs => fs
  | e => [e]

/-- A sum with the constants folded into its last term. -/
def add (a b : Formula) : Formula :=
  let (constant, terms) := absorb Scalar.add? 0 (a.addends ++ b.addends)
  match if constant.isZero then terms else terms ++ [.num constant] with
  | [] => zero
  | [t] => t
  | ts => .plus ts

/-- The opposite; the opposite of an opposite is the formula itself. -/
def neg (e : Formula) : Formula :=
  match e with
  | .num v => if (-v).isOverflow then .minus e else .num (-v)
  | .minus a => a
  | _ => .minus e

/-- A difference. -/
def sub (a b : Formula) : Formula :=
  a.add b.neg

/-- A product with the constants folded into its first factor; zero if that is
zero. -/
def mul (a b : Formula) : Formula :=
  let (coefficient, factors) := absorb Scalar.mul? 1 (a.multiplicands ++ b.multiplicands)
  if coefficient.isZero then zero
  else
    match
      if !coefficient.isOne || factors.isEmpty then .num coefficient :: factors else factors with
    | [f] => f
    | fs => .times fs

/-- A multiple. -/
def scale (e : Formula) (factor : Scalar) : Formula :=
  (Formula.num factor).mul e

/-- A quotient. -/
def div (a b : Formula) : Formula :=
  if b.isOne then a
  else
    match a.asNum?, b.asNum? with
    | some x, some y =>
      match x.div? y with
      | some q => .num q
      | none => .over a b
    | _, _ => .over a b

/-- A power. -/
def pow (base exponent : Formula) : Formula :=
  if exponent.isOne then base else if exponent.isZero then one else .raised base exponent

/-- A logarithm. -/
def log (e : Formula) : Formula :=
  .logOf e

/-- A minimum.  Costs are never negative, so that with zero is zero. -/
def min (a b : Formula) : Formula :=
  if a.isZero || b.isZero then zero
  else if a == b then a
  else
    match a.asNum?, b.asNum? with
    | some x, some y => .num (Scalar.least x y)
    | _, _ => .minOf a b

/-- A maximum.  Costs are never negative, so that with zero is the other
operand. -/
def max (a b : Formula) : Formula :=
  if a.isZero then b
  else if b.isZero || a == b then a
  else
    match a.asNum?, b.asNum? with
    | some x, some y => .num (Scalar.greatest x y)
    | _, _ => .maxOf a b

/-- A summation; one of zero is zero. -/
def sum (body : Formula) (index : String) (start stop : Formula) : Formula :=
  if body.isZero then zero else .sumOver body index start stop

/-! ## What a formula holds -/

mutual

/-- The variables that no summation binds, in order of occurrence, where `bound`
are the indices of the enclosing summations. -/
def varsOutside (bound : List String) : Formula → List String
  | .num _ => []
  | .unknown _ => []
  | .var name => if bound.contains name then [] else [name]
  | .resolved p => p.freeVars.filter fun name => !bound.contains name
  | .plus ts => listVarsOutside bound ts
  | .times fs => listVarsOutside bound fs
  | .over a b => varsOutside bound a ++ varsOutside bound b
  | .raised a b => varsOutside bound a ++ varsOutside bound b
  | .minus a => varsOutside bound a
  | .logOf a => varsOutside bound a
  | .minOf a b => varsOutside bound a ++ varsOutside bound b
  | .maxOf a b => varsOutside bound a ++ varsOutside bound b
  | .sumOver body index start stop =>
    varsOutside bound start ++ varsOutside bound stop ++ varsOutside (index :: bound) body
termination_by structural e => e

/-- The variables of a list of formulas that no summation binds. -/
def listVarsOutside (bound : List String) : List Formula → List String
  | [] => []
  | e :: es => varsOutside bound e ++ listVarsOutside bound es
termination_by structural es => es

end

/-- The set of free variables, in increasing order. -/
def freeVars (e : Formula) : List String :=
  Assoc.sortedSet (varsOutside [] e)

mutual

/-- The length of the deepest chain of nested summations. -/
def sumDepth : Formula → Nat
  | .num _ => 0
  | .unknown _ => 0
  | .var _ => 0
  | .resolved _ => 0
  | .plus ts => sumDepthList ts
  | .times fs => sumDepthList fs
  | .over a b => Nat.max (sumDepth a) (sumDepth b)
  | .raised a b => Nat.max (sumDepth a) (sumDepth b)
  | .minus a => sumDepth a
  | .logOf a => sumDepth a
  | .minOf a b => Nat.max (sumDepth a) (sumDepth b)
  | .maxOf a b => Nat.max (sumDepth a) (sumDepth b)
  | .sumOver body _ start stop =>
    Nat.max (sumDepth body) (Nat.max (sumDepth start) (sumDepth stop)) + 1
termination_by structural e => e

/-- The deepest chain in a list. -/
def sumDepthList : List Formula → Nat
  | [] => 0
  | e :: es => Nat.max (sumDepth e) (sumDepthList es)
termination_by structural es => es

end

mutual

/-- Whether some leaf is opaque. -/
def hasUnknown : Formula → Bool
  | .num _ => false
  | .unknown _ => true
  | .var _ => false
  | .resolved p => p.hasOpaque
  | .plus ts => anyUnknown ts
  | .times fs => anyUnknown fs
  | .over a b => hasUnknown a || hasUnknown b
  | .raised a b => hasUnknown a || hasUnknown b
  | .minus a => hasUnknown a
  | .logOf a => hasUnknown a
  | .minOf a b => hasUnknown a || hasUnknown b
  | .maxOf a b => hasUnknown a || hasUnknown b
  | .sumOver body _ start stop => hasUnknown body || hasUnknown start || hasUnknown stop
termination_by structural e => e

/-- Whether some leaf of a list is opaque. -/
def anyUnknown : List Formula → Bool
  | [] => false
  | e :: es => hasUnknown e || anyUnknown es
termination_by structural es => es

end

mutual

/-- Whether some number is no integer. -/
def hasFraction : Formula → Bool
  | .num v => !v.isInteger
  | .unknown _ => false
  | .var _ => false
  | .resolved _ => false
  | .plus ts => anyFraction ts
  | .times fs => anyFraction fs
  | .over a b => hasFraction a || hasFraction b
  | .raised a b => hasFraction a || hasFraction b
  | .minus a => hasFraction a
  | .logOf a => hasFraction a
  | .minOf a b => hasFraction a || hasFraction b
  | .maxOf a b => hasFraction a || hasFraction b
  | .sumOver body _ start stop => hasFraction body || hasFraction start || hasFraction stop
termination_by structural e => e

/-- Whether some number of a list is no integer. -/
def anyFraction : List Formula → Bool
  | [] => false
  | e :: es => hasFraction e || anyFraction es
termination_by structural es => es

end

/-! ## Substitution -/

/-- The polynomial of a formula that is a number, a variable or in closed
form. -/
def asPoly? : Formula → Option Poly
  | .num v => some (Poly.constant v)
  | .var name => some (Poly.var name)
  | .resolved p => some p
  | _ => none

mutual

/-- Replaces the free occurrences of a variable and rebuilds the formula.
Inside a part in closed form only a value that is a polynomial itself can be
put. -/
def substitute (name : String) (value : Formula) : Formula → Formula
  | .var v => if v == name then value else .var v
  | .num v => .num v
  | .unknown t => .unknown t
  | .resolved p =>
    match value.asPoly? with
    | some q => .resolved (Poly.substitute name q p)
    | none => .resolved p
  | .plus ts => addSubstituted name value zero ts
  | .times fs => mulSubstituted name value one fs
  | .over a b => (substitute name value a).div (substitute name value b)
  | .raised a b => (substitute name value a).pow (substitute name value b)
  | .minus a => (substitute name value a).neg
  | .logOf a => (substitute name value a).log
  | .minOf a b => (substitute name value a).min (substitute name value b)
  | .maxOf a b => (substitute name value a).max (substitute name value b)
  | .sumOver body index start stop =>
    sum (if index == name then body else substitute name value body) index
      (substitute name value start) (substitute name value stop)
termination_by structural e => e

/-- Adds to `acc` the terms with the variable replaced. -/
def addSubstituted (name : String) (value acc : Formula) : List Formula → Formula
  | [] => acc
  | e :: es => addSubstituted name value (acc.add (substitute name value e)) es
termination_by structural es => es

/-- Multiplies `acc` by the factors with the variable replaced. -/
def mulSubstituted (name : String) (value acc : Formula) : List Formula → Formula
  | [] => acc
  | e :: es => mulSubstituted name value (acc.mul (substitute name value e)) es
termination_by structural es => es

end

/-! ## Text -/

/-- The binding strength of a formula's text, as for polynomials. -/
def precedence : Formula → Nat
  | .plus _ => 1
  | .times _ => 2
  | .over _ _ => 2
  | .minus _ => 2
  | .num v => if v.isNegative || !v.isInteger then 2 else 4
  | .raised _ _ => 3
  | .resolved p => p.precedence
  | _ => 4

/-- Puts the text of an operand in parentheses if it binds less than its place
demands. -/
def operandText (e : Formula) (least : Nat) (text : String) : String :=
  if e.precedence < least then parenthesized text else text

mutual

/-- The text of a formula. -/
def text : Formula → String
  | .num v => v.text
  | .var name => name
  | .unknown t => "unknown(" ++ t ++ ")"
  | .resolved p => p.text
  | .plus ts => sumText true ts
  | .times fs => productText true fs
  | .over a b => operandText a 2 (text a) ++ "/" ++ operandText b 3 (text b)
  | .raised a b => operandText a 4 (text a) ++ "**" ++ operandText b 4 (text b)
  | .minus a => "-" ++ operandText a 3 (text a)
  | .logOf a => "log(" ++ text a ++ ")"
  | .minOf a b => "Min(" ++ text a ++ ", " ++ text b ++ ")"
  | .maxOf a b => "Max(" ++ text a ++ ", " ++ text b ++ ")"
  | .sumOver body index start stop =>
    "Sum(" ++ text body ++ ", (" ++ index ++ ", " ++ text start ++ ", " ++ text stop ++ "))"
termination_by structural e => e

/-- The terms of a sum, each after the first with its sign between blanks. -/
def sumText (first : Bool) : List Formula → String
  | [] => ""
  | e :: es =>
    (if first then operandText e 2 (text e)
     else
       match e with
       | .minus a => " - " ++ operandText a 2 (text a)
       | .num v =>
         if v.isNegative then " - " ++ v.abs.text else " + " ++ operandText (.num v) 2 v.text
       | e => " + " ++ operandText e 2 (text e))
      ++ sumText false es
termination_by structural es => es

/-- The factors of a product; the first one may be a fraction or a negative
number. -/
def productText (first : Bool) : List Formula → String
  | [] => ""
  | e :: es =>
    (if first then operandText e 2 (text e) else "*" ++ operandText e 3 (text e))
      ++ productText false es
termination_by structural es => es

end

instance : ToString Formula := ⟨text⟩

end Formula

end CostAnalysis
