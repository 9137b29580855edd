import CostAnalysis.Algebra.Poly.Render

/-!
# Quotients, powers, logarithms and extrema

The operations that leave the ring of polynomials.  Each applies its law where
the result is a polynomial over simpler atoms and otherwise introduces an atom
that stands for the whole.  Where not even that makes sense, as for a division
by zero, the result is an opaque fragment that quotes the operands.

`Poly.substitute` replaces a variable at every depth and so goes through all of
these operations; opaque fragments are left as they are.
-/

namespace CostAnalysis

open Numeric

namespace Poly

/-- An opaque fragment as a polynomial. -/
def unknown (text : String) : Poly :=
  ofAtom (.unknown text)

/-- An integral power.  A negative power is exact for a single term and an atom
otherwise. -/
def powInt (p : Poly) (k : Int) : Poly :=
  if k < 0 then
    match p.singleTerm? with
    | some (m, c) =>
      match c.pow? (wrapSigned 32 k) with
      | some c' => term c' (m.inverse.pow (-k))
      | none => unknown (parenthesized p.text ++ "**" ++ parenthesized (toString k))
    | none => ofAtom (.power p (.ofInt k))
  else p.powNat k.natAbs

/-- The quotient; exact for a constant or single-term divisor. -/
def div (p q : Poly) : Poly :=
  match q.asConstant? with
  | some c =>
    match (1 : Scalar).div? c with
    | some inverse => p.scale inverse
    | none => unknown (parenthesized p.text ++ "/0")
  | none => p.mul (q.powInt (-1))

/-- The exponents of a list of factors times a scalar, if all of them are
integers. -/
def scaleExponents? (factors : List (Atom × Int)) (exponent : Scalar) :
    Option (List (Atom × Int)) :=
  factors.mapM fun (a, e) =>
    ((Scalar.ofInt e) * exponent).toInt?.map fun k => (a, wrapSigned 64 k)

/-- A rational power.  Integral powers up to 64 are expanded; a product of
powers is scaled if every exponent stays integral; any other power is an
atom. -/
def powRational (p : Poly) (exponent : Scalar) : Poly :=
  match exponent.toInt?.filter (fun k => -64 ≤ k && k ≤ 64) with
  | some k => p.powInt k
  | none =>
    let scaled := do
      let (m, c) ← p.singleTerm?
      if c.isOne then scaleExponents? m.factors exponent else none
    match scaled with
    | some factors => term 1 (.ofFactors factors)
    | none => if p.isZero then zero else ofAtom (.power p exponent)

/-- `base ** exponent`.  An integral constant in the exponent, up to 64, becomes
a coefficient. -/
def exp (base : Scalar) (exponent : Poly) : Poly :=
  if base.isOne then one
  else if base.isZero then zero
  else
    match exponent.asConstant? with
    | some c => (constant base).powRational c
    | none =>
      let offset := exponent.constantTerm
      let factor := do
        let k ← offset.toInt?
        if k ≠ 0 && k.natAbs ≤ 64 then base.pow? k else none
      match factor with
      | some c => (ofAtom (.exp base (exponent.sub (constant offset)))).scale c
      | none => ofAtom (.exp base exponent)

/-- A power with any exponent.  A symbolic exponent needs a base that is a
constant and not negative. -/
def power (p exponent : Poly) : Poly :=
  match exponent.asConstant? with
  | some e => p.powRational e
  | none =>
    let opaquePower := unknown (parenthesized p.text ++ "**" ++ parenthesized exponent.text)
    match p.asConstant? with
    | some base => if base.isNegative then opaquePower else exp base exponent
    | none => opaquePower

/-- The logarithm of a constant: zero for one, an atom otherwise. -/
def logConstant (c : Scalar) : Poly :=
  if c.isOne then zero else ofAtom (.log (constant c))

end Poly

mutual

/-- The logarithm.  That of a single term is the sum of those of its coefficient
and factors, and that of a power is a multiple of that of its base. -/
def Poly.log : Poly → Poly
  | .ofTerms [] => Poly.logConstant 0
  | .ofTerms [(.ofFactors fs, c)] =>
    match fs with
    | [] => Poly.logConstant c
    | _ :: _ => Poly.addLogs (Poly.logConstant c) fs
  | .ofTerms ts => Poly.ofAtom (.log (.ofTerms ts))
termination_by structural p => p

/-- Adds to `acc` the logarithm of each factor, times its exponent. -/
def Poly.addLogs (acc : Poly) : List (Atom × Int) → Poly
  | [] => acc
  | (.exp base p, e) :: fs =>
    Poly.addLogs (acc.add ((p.mul (Poly.logConstant base)).scale (.ofInt e))) fs
  | (.power p s, e) :: fs => Poly.addLogs (acc.add ((p.log.scale s).scale (.ofInt e))) fs
  | (.var v, e) :: fs =>
    Poly.addLogs (acc.add ((Poly.ofAtom (.log (Poly.ofAtom (.var v)))).scale (.ofInt e))) fs
  | (.log p, e) :: fs =>
    Poly.addLogs (acc.add ((Poly.ofAtom (.log (Poly.ofAtom (.log p)))).scale (.ofInt e))) fs
  | (.min p q, e) :: fs =>
    Poly.addLogs (acc.add ((Poly.ofAtom (.log (Poly.ofAtom (.min p q)))).scale (.ofInt e))) fs
  | (.max p q, e) :: fs =>
    Poly.addLogs (acc.add ((Poly.ofAtom (.log (Poly.ofAtom (.max p q)))).scale (.ofInt e))) fs
  | (.unresolved t, e) :: fs =>
    Poly.addLogs (acc.add ((Poly.ofAtom (.log (Poly.ofAtom (.unresolved t)))).scale (.ofInt e))) fs
  | (.unknown t, e) :: fs =>
    Poly.addLogs (acc.add ((Poly.ofAtom (.log (Poly.ofAtom (.unknown t)))).scale (.ofInt e))) fs
termination_by structural fs => fs

end

namespace Poly

/-- Chooses between two polynomials whose difference is constant; any other pair
becomes an atom made by `wrap`, its operands in order. -/
def extremum (takeSmaller : Bool) (wrap : Poly → Poly → Atom) (p q : Poly) : Poly :=
  if p == q then p
  else
    match (p.sub q).asConstant? with
    | some difference => if difference.isNegative == takeSmaller then p else q
    | none => if p.cmp q == .gt then ofAtom (wrap q p) else ofAtom (wrap p q)

/-- The minimum of two polynomials. -/
def minWith (p q : Poly) : Poly :=
  extremum true .min p q

/-- The maximum of two polynomials. -/
def maxWith (p q : Poly) : Poly :=
  extremum false .max p q

end Poly

mutual

/-- Replaces a variable inside an atom by a polynomial. -/
def Atom.substitute (name : String) (value : Poly) : Atom → Poly
  | .var v => if v == name then value else Poly.ofAtom (.var v)
  | .log p => (Poly.substitute name value p).log
  | .min p q => (Poly.substitute name value p).minWith (Poly.substitute name value q)
  | .max p q => (Poly.substitute name value p).maxWith (Poly.substitute name value q)
  | .exp base p => Poly.exp base (Poly.substitute name value p)
  | .power p e => (Poly.substitute name value p).powRational e
  | .unresolved t => Poly.ofAtom (.unresolved t)
  | .unknown t => Poly.ofAtom (.unknown t)
termination_by structural a => a

/-- Multiplies `acc` by each factor with the variable replaced.  Factors that do
not depend on the variable, and opaque ones, stay as they are. -/
def Atom.substituteFactors (name : String) (value : Poly) (acc : Poly) :
    List (Atom × Int) → Poly
  | [] => acc
  | (a, e) :: fs =>
    let replaced :=
      if a.mentions name && !a.isOpaque then (Atom.substitute name value a).powInt e
      else Poly.term 1 (.of a e)
    Atom.substituteFactors name value (acc.mul replaced) fs
termination_by structural fs => fs

/-- Replaces a variable in a monomial with a coefficient. -/
def Monomial.substitute (name : String) (value : Poly) (c : Scalar) : Monomial → Poly
  | .ofFactors fs => Atom.substituteFactors name value (Poly.constant c) fs
termination_by structural m => m

/-- Replaces a variable by a polynomial. -/
def Poly.substitute (name : String) (value : Poly) : Poly → Poly
  | .ofTerms ts => Poly.substituteTerms name value Poly.zero ts
termination_by structural p => p

/-- Adds to `acc` each term with the variable replaced. -/
def Poly.substituteTerms (name : String) (value : Poly) (acc : Poly) :
    List (Monomial × Scalar) → Poly
  | [] => acc
  | (m, c) :: ts =>
    Poly.substituteTerms name value (acc.add (Monomial.substitute name value c m)) ts
termination_by structural ts => ts

end

end CostAnalysis
