import CostAnalysis.Numeric.Scalar
import CostAnalysis.Algebra.Assoc
import CostAnalysis.Text.Numeral

/-!
# Polynomials over atoms

The normal form of a cost: a sum of monomials with scalar coefficients, where a
monomial is a product of powers of *atoms*.  An atom is whatever the algebra
does not look into: a variable, a logarithm, an extremum, an exponential, a
power that cannot be expanded, or an opaque piece of text.  Logarithms, extrema,
exponentials and powers hold polynomials again, so the three types are mutually
recursive.

Monomials and polynomials are ordered association lists (`CostAnalysis.Assoc`):
the factors of a monomial are listed in the order of the atoms, the terms of a
polynomial in the order of the monomials.  The order is the lexicographic one,
constructor by constructor in the order of declaration and field by field, and
it decides the order of terms wherever nothing else does.
-/

namespace CostAnalysis

mutual

/-- An irreducible factor of a monomial. -/
inductive Atom where
  | var (name : String)
  | log (argument : Poly)
  | min (left right : Poly)
  | max (left right : Poly)
  /-- A constant raised to a symbolic exponent. -/
  | exp (base : Scalar) (exponent : Poly)
  /-- A power that cannot be expanded: a fractional exponent or a base of
  several terms. -/
  | power (base : Poly) (exponent : Scalar)
  /-- A summation without a closed form, kept as text. -/
  | unresolved (text : String)
  /-- A fragment that could not be read. -/
  | unknown (text : String)

/-- A product of atoms with integral exponents. -/
inductive Monomial where
  | ofFactors (factors : List (Atom × Int))

/-- A sum of monomials with scalar coefficients. -/
inductive Poly where
  | ofTerms (terms : List (Monomial × Scalar))

end

/-- The factors of a monomial, in the order of the atoms. -/
def Monomial.factors : Monomial → List (Atom × Int)
  | .ofFactors factors => factors

/-- The terms of a polynomial, in the order of the monomials. -/
def Poly.terms : Poly → List (Monomial × Scalar)
  | .ofTerms terms => terms

instance : Inhabited Monomial := ⟨.ofFactors []⟩

instance : Inhabited Poly := ⟨.ofTerms []⟩

/-! ## Order -/

/-- The place of an atom's kind in the order of atoms. -/
def Atom.rank : Atom → Nat
  | .var _ => 0
  | .log _ => 1
  | .min _ _ => 2
  | .max _ _ => 3
  | .exp _ _ => 4
  | .power _ _ => 5
  | .unresolved _ => 6
  | .unknown _ => 7

mutual

/-- The order of atoms. -/
def Atom.cmp : Atom → Atom → Ordering
  | .var a, .var b => compare a b
  | .log p, .log q => p.cmp q
  | .min p q, .min p' q' => (p.cmp p').then (q.cmp q')
  | .max p q, .max p' q' => (p.cmp p').then (q.cmp q')
  | .exp b p, .exp b' p' => (b.cmp b').then (p.cmp p')
  | .power p e, .power p' e' => (p.cmp p').then (e.cmp e')
  | .unresolved a, .unresolved b => compare a b
  | .unknown a, .unknown b => compare a b
  | a, b => compare a.rank b.rank
termination_by structural a => a

/-- The order of monomials. -/
def Monomial.cmp : Monomial → Monomial → Ordering
  | .ofFactors fs, .ofFactors gs => Atom.cmpFactors fs gs
termination_by structural m => m

/-- The order of polynomials. -/
def Poly.cmp : Poly → Poly → Ordering
  | .ofTerms ts, .ofTerms us => Monomial.cmpTerms ts us
termination_by structural p => p

/-- The lexicographic order of factor lists. -/
def Atom.cmpFactors : List (Atom × Int) → List (Atom × Int) → Ordering
  | [], [] => .eq
  | [], _ :: _ => .lt
  | _ :: _, [] => .gt
  | (a, e) :: fs, (b, f) :: gs => (a.cmp b).then ((compare e f).then (Atom.cmpFactors fs gs))
termination_by structural fs => fs

/-- The lexicographic order of term lists. -/
def Monomial.cmpTerms : List (Monomial × Scalar) → List (Monomial × Scalar) → Ordering
  | [], [] => .eq
  | [], _ :: _ => .lt
  | _ :: _, [] => .gt
  | (m, c) :: ts, (n, d) :: us => (m.cmp n).then ((c.cmp d).then (Monomial.cmpTerms ts us))
termination_by structural ts => ts

end

instance : Ord Atom := ⟨Atom.cmp⟩

instance : Ord Monomial := ⟨Monomial.cmp⟩

instance : Ord Poly := ⟨Poly.cmp⟩

instance : BEq Atom := ⟨fun a b => a.cmp b == .eq⟩

instance : BEq Monomial := ⟨fun m n => m.cmp n == .eq⟩

instance : BEq Poly := ⟨fun p q => p.cmp q == .eq⟩

/-! ## What a polynomial holds -/

mutual

/-- Whether the atom is or holds an opaque fragment. -/
def Atom.isOpaque : Atom → Bool
  | .var _ => false
  | .log p => p.hasOpaque
  | .min p q => p.hasOpaque || q.hasOpaque
  | .max p q => p.hasOpaque || q.hasOpaque
  | .exp _ p => p.hasOpaque
  | .power p _ => p.hasOpaque
  | .unresolved _ => true
  | .unknown _ => true
termination_by structural a => a

/-- Whether some factor is opaque. -/
def Monomial.hasOpaque : Monomial → Bool
  | .ofFactors fs => Atom.anyOpaque fs
termination_by structural m => m

/-- Whether some atom at any depth is an opaque fragment. -/
def Poly.hasOpaque : Poly → Bool
  | .ofTerms ts => Monomial.anyOpaque ts
termination_by structural p => p

/-- Whether a factor of the list is opaque. -/
def Atom.anyOpaque : List (Atom × Int) → Bool
  | [] => false
  | (a, _) :: fs => a.isOpaque || Atom.anyOpaque fs
termination_by structural fs => fs

/-- Whether a term of the list is opaque. -/
def Monomial.anyOpaque : List (Monomial × Scalar) → Bool
  | [] => false
  | (m, _) :: ts => m.hasOpaque || Monomial.anyOpaque ts
termination_by structural ts => ts

end

mutual

/-- Whether a scalar inside the atom overflowed. -/
def Atom.hasOverflow : Atom → Bool
  | .var _ => false
  | .log p => p.hasOverflow
  | .min p q => p.hasOverflow || q.hasOverflow
  | .max p q => p.hasOverflow || q.hasOverflow
  | .exp b p => b.isOverflow || p.hasOverflow
  | .power p e => e.isOverflow || p.hasOverflow
  | .unresolved _ => false
  | .unknown _ => false
termination_by structural a => a

/-- Whether a scalar inside the monomial overflowed. -/
def Monomial.hasOverflow : Monomial → Bool
  | .ofFactors fs => Atom.anyOverflow fs
termination_by structural m => m

/-- Whether some coefficient, or a scalar inside an atom, overflowed. -/
def Poly.hasOverflow : Poly → Bool
  | .ofTerms ts => Monomial.anyOverflow ts
termination_by structural p => p

/-- Whether a factor of the list overflowed. -/
def Atom.anyOverflow : List (Atom × Int) → Bool
  | [] => false
  | (a, _) :: fs => a.hasOverflow || Atom.anyOverflow fs
termination_by structural fs => fs

/-- Whether a term of the list overflowed. -/
def Monomial.anyOverflow : List (Monomial × Scalar) → Bool
  | [] => false
  | (m, c) :: ts => (c.isOverflow || m.hasOverflow) || Monomial.anyOverflow ts
termination_by structural ts => ts

end

/-- Whether a name occurs as a whole word in an opaque text, words being runs of
letters, digits, underscores and points. -/
def textMentions (text name : String) : Bool :=
  (Text.splitWhere (fun c => !(Text.isAlphanumeric c || c == '_' || c == '.')) text.toList).any
    fun word => word == name.toList

mutual

/-- Whether the atom depends on a variable; an opaque text depends on the words
in it. -/
def Atom.mentions (name : String) : Atom → Bool
  | .var v => v == name
  | .log p => p.mentions name
  | .min p q => p.mentions name || q.mentions name
  | .max p q => p.mentions name || q.mentions name
  | .exp _ p => p.mentions name
  | .power p _ => p.mentions name
  | .unresolved text => textMentions text name
  | .unknown text => textMentions text name
termination_by structural a => a

/-- Whether some factor depends on a variable. -/
def Monomial.mentions (name : String) : Monomial → Bool
  | .ofFactors fs => Atom.anyMentions name fs
termination_by structural m => m

/-- Whether some atom depends on a variable. -/
def Poly.mentions (name : String) : Poly → Bool
  | .ofTerms ts => Monomial.anyMentions name ts
termination_by structural p => p

/-- Whether a factor of the list depends on a variable. -/
def Atom.anyMentions (name : String) : List (Atom × Int) → Bool
  | [] => false
  | (a, _) :: fs => a.mentions name || Atom.anyMentions name fs
termination_by structural fs => fs

/-- Whether a term of the list depends on a variable. -/
def Monomial.anyMentions (name : String) : List (Monomial × Scalar) → Bool
  | [] => false
  | (m, _) :: ts => m.mentions name || Monomial.anyMentions name ts
termination_by structural ts => ts

end

mutual

/-- The variables of an atom in order of occurrence. -/
def Atom.vars : Atom → List String
  | .var v => [v]
  | .log p => p.vars
  | .min p q => p.vars ++ q.vars
  | .max p q => p.vars ++ q.vars
  | .exp _ p => p.vars
  | .power p _ => p.vars
  | .unresolved _ => []
  | .unknown _ => []
termination_by structural a => a

/-- The variables of a monomial in order of occurrence. -/
def Monomial.vars : Monomial → List String
  | .ofFactors fs => Atom.allVars fs
termination_by structural m => m

/-- The variables of a polynomial in order of occurrence. -/
def Poly.vars : Poly → List String
  | .ofTerms ts => Monomial.allVars ts
termination_by structural p => p

/-- The variables of a list of factors. -/
def Atom.allVars : List (Atom × Int) → List String
  | [] => []
  | (a, _) :: fs => a.vars ++ Atom.allVars fs
termination_by structural fs => fs

/-- The variables of a list of terms. -/
def Monomial.allVars : List (Monomial × Scalar) → List String
  | [] => []
  | (m, _) :: ts => m.vars ++ Monomial.allVars ts
termination_by structural ts => ts

end

/-- The set of variables of a polynomial, in increasing order. -/
def Poly.freeVars (p : Poly) : List String :=
  Assoc.sortedSet p.vars

/-! ## Small polynomials -/

namespace Monomial

/-- The empty product. -/
def one : Monomial := .ofFactors []

/-- A power of an atom; the power zero is the empty product. -/
def of (a : Atom) (exponent : Int) : Monomial :=
  if exponent = 0 then one else .ofFactors [(a, exponent)]

/-- Whether the monomial is the empty product. -/
def isOne (m : Monomial) : Bool :=
  m.factors.isEmpty

/-- The exponent of an atom, zero if it does not occur. -/
def exponentOf (m : Monomial) (a : Atom) : Int :=
  (Assoc.find? a m.factors).getD 0

end Monomial

namespace Poly

/-- The empty sum. -/
def zero : Poly := .ofTerms []

/-- A single term; a zero coefficient gives the empty sum. -/
def term (c : Scalar) (m : Monomial) : Poly :=
  if c.isZero then zero else .ofTerms [(m, c)]

/-- A constant polynomial. -/
def constant (c : Scalar) : Poly :=
  term c .one

/-- The constant one. -/
def one : Poly :=
  constant 1

/-- An atom as a polynomial. -/
def ofAtom (a : Atom) : Poly :=
  term 1 (.of a 1)

/-- A variable as a polynomial. -/
def var (name : String) : Poly :=
  ofAtom (.var name)

/-- Whether the polynomial is the empty sum. -/
def isZero (p : Poly) : Bool :=
  p.terms.isEmpty

/-- The constant that the polynomial is, if it is one. -/
def asConstant? (p : Poly) : Option Scalar :=
  match p.terms with
  | [] => some 0
  | [(m, c)] => if m.isOne then some c else none
  | _ => none

/-- The coefficient of the empty product. -/
def constantTerm (p : Poly) : Scalar :=
  (Assoc.find? Monomial.one p.terms).getD 0

/-- The term of a polynomial that has exactly one. -/
def singleTerm? (p : Poly) : Option (Monomial × Scalar) :=
  match p.terms with
  | [t] => some t
  | _ => none

end Poly

end CostAnalysis
