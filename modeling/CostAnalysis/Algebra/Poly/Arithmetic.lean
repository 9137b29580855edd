import CostAnalysis.Algebra.Poly.Basic

/-!
# Sums, products and powers of monomials

The ring operations.  Coefficients are added and multiplied as scalars, so a
result that does not fit shows as `Scalar.overflow` among the coefficients;
exponents are clamped to 64-bit words.
-/

namespace CostAnalysis

open Numeric

namespace Monomial

/-- Multiplies a monomial by a power of an atom. -/
def mulFactor (m : Monomial) (a : Atom) (exponent : Int) : Monomial :=
  .ofFactors <| Assoc.alter a
    (fun old =>
      let total := saturate 64 (old.getD 0 + exponent)
      if total = 0 then none else some total)
    m.factors

/-- The product of two monomials. -/
def mul (m n : Monomial) : Monomial :=
  n.factors.foldl (fun acc factor => acc.mulFactor factor.1 factor.2) m

/-- An integral power of a monomial. -/
def pow (m : Monomial) (k : Int) : Monomial :=
  .ofFactors <|
    (m.factors.map fun (a, e) => (a, saturate 64 (e * k))).filter fun (_, e) => e ≠ 0

/-- The reciprocal of a monomial. -/
def inverse (m : Monomial) : Monomial :=
  m.pow (-1)

/-- The exponent of a variable, and the product of the other factors. -/
def splitVar (m : Monomial) (name : String) : Int × Monomial :=
  (m.exponentOf (.var name), .ofFactors (Assoc.erase (.var name) m.factors))

end Monomial

namespace Poly

/-- Adds a term to a polynomial. -/
def addTerm (p : Poly) (m : Monomial) (c : Scalar) : Poly :=
  .ofTerms <| Assoc.alter m
    (fun old =>
      let total := old.getD 0 + c
      if total.isZero then none else some total)
    p.terms

/-- The sum of two polynomials. -/
def add (p q : Poly) : Poly :=
  q.terms.foldl (fun acc t => acc.addTerm t.1 t.2) p

/-- The opposite polynomial. -/
def neg (p : Poly) : Poly :=
  .ofTerms (p.terms.map fun (m, c) => (m, -c))

/-- The difference of two polynomials. -/
def sub (p q : Poly) : Poly :=
  p.add q.neg

/-- Multiplies every coefficient by a scalar. -/
def scale (p : Poly) (factor : Scalar) : Poly :=
  if factor.isZero then zero else .ofTerms (p.terms.map fun (m, c) => (m, c * factor))

/-- The product of two polynomials. -/
def mul (p q : Poly) : Poly :=
  p.terms.foldl
    (fun acc (m₁, c₁) =>
      q.terms.foldl (fun acc (m₂, c₂) => acc.add (term (c₁ * c₂) (m₁.mul m₂))) acc)
    zero

/-- `acc · p ^ k`, one factor at a time. -/
def powFrom (p acc : Poly) : Nat → Poly
  | 0 => acc
  | k + 1 => powFrom p (acc.mul p) k

/-- A natural power of a polynomial. -/
def powNat (p : Poly) (k : Nat) : Poly :=
  powFrom p one k

end Poly

end CostAnalysis
