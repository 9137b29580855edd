import CostAnalysis.Algebra.Formula.Basic
import CostAnalysis.Proofs.Scalar
import Mathlib.Algebra.BigOperators.Group.Finset.Basic
import Mathlib.Algebra.BigOperators.Group.List.Basic
import Mathlib.Algebra.BigOperators.Intervals
import Mathlib.Algebra.Order.Field.Basic
import Mathlib.Data.Int.ConditionallyCompleteOrder
import Mathlib.Data.Int.Interval
import Mathlib.Data.Rat.Floor

/-!
# Readings: what formulas and polynomials stand for

A `Reading` gives a rational number to every variable and to every opaque
fragment, and fixes what a logarithm and a power are.  Under a reading each
formula and each polynomial has a value.  The value of a summation is the finite
sum over the integers of its range, whatever its bounds are; an empty range
gives zero.

Logarithms and powers are any functions, so that statements about costs hold
however these are understood.  Statements about closed forms, which expand
natural powers, ask for `Reading.ReadsPowers`.

The mark of an overflow is read as some number too.  It has no meaning, but it
has the same one everywhere, which is all that statements about formulas with
such a mark in them need.
-/

namespace CostAnalysis

/-- Values for everything that a formula is built from. -/
structure Reading where
  /-- The values of the variables. -/
  var : String → ℚ
  /-- The values of opaque fragments, by their texts. -/
  fragment : String → ℚ
  /-- What the mark of an overflow counts as. -/
  overflow : ℚ
  log : ℚ → ℚ
  pow : ℚ → ℚ → ℚ

namespace Reading

/-- The same reading with another value for one variable. -/
def set (I : Reading) (name : String) (value : ℚ) : Reading :=
  { I with var := Function.update I.var name value }

/-- Setting a variable changes the values of variables at this one. -/
@[simp] theorem set_var (I : Reading) (name : String) (value : ℚ) :
    (I.set name value).var = Function.update I.var name value := rfl

@[simp] theorem set_fragment (I : Reading) (name : String) (value : ℚ) :
    (I.set name value).fragment = I.fragment := rfl

@[simp] theorem set_overflow (I : Reading) (name : String) (value : ℚ) :
    (I.set name value).overflow = I.overflow := rfl

@[simp] theorem set_log (I : Reading) (name : String) (value : ℚ) :
    (I.set name value).log = I.log := rfl

@[simp] theorem set_pow (I : Reading) (name : String) (value : ℚ) :
    (I.set name value).pow = I.pow := rfl

theorem set_self (I : Reading) (name : String) : I.set name (I.var name) = I := by
  rw [set, Function.update_eq_self]

theorem set_set (I : Reading) (name : String) (x y : ℚ) :
    (I.set name x).set name y = I.set name y := by
  simp only [set, Function.update_idem]

/-- The same reading with other values for the variables. -/
def withVars (I : Reading) (values : String → ℚ) : Reading :=
  { I with var := values }

/-- Natural powers are read as powers. -/
def ReadsPowers (I : Reading) : Prop :=
  ∀ (x : ℚ) (k : ℕ), I.pow x k = x ^ k

theorem ReadsPowers.set {I : Reading} (hI : I.ReadsPowers) (name : String) (value : ℚ) :
    (I.set name value).ReadsPowers :=
  hI

theorem ReadsPowers.withVars {I : Reading} (hI : I.ReadsPowers) (values : String → ℚ) :
    (I.withVars values).ReadsPowers :=
  hI

/-- The value of a scalar. -/
def scalar (I : Reading) : Scalar → ℚ
  | .exact q => q
  | .overflow => I.overflow

@[simp] theorem scalar_exact (I : Reading) (q : ℚ) : I.scalar (.exact q) = q := rfl

@[simp] theorem scalar_one (I : Reading) : I.scalar 1 = 1 := rfl

@[simp] theorem scalar_zero (I : Reading) : I.scalar 0 = 0 := rfl

/-- Scalars do not depend on variables. -/
@[simp] theorem scalar_set (I : Reading) (name : String) (value : ℚ) (s : Scalar) :
    (I.set name value).scalar s = I.scalar s := by
  cases s <;> rfl

@[simp] theorem scalar_withVars (I : Reading) (values : String → ℚ) (s : Scalar) :
    (I.withVars values).scalar s = I.scalar s := by
  cases s <;> rfl

/-- A scalar that is zero has the value zero. -/
theorem scalar_of_isZero (I : Reading) {s : Scalar} (h : s.isZero = true) : I.scalar s = 0 := by
  cases s with
  | exact q => exact (Scalar.isZero_exact q).mp h
  | overflow => exact absurd h (by decide)

/-- A scalar that is one has the value one. -/
theorem scalar_of_isOne (I : Reading) {s : Scalar} (h : s.isOne = true) : I.scalar s = 1 := by
  cases s with
  | exact q => exact (Scalar.isOne_exact q).mp h
  | overflow => exact absurd h (by decide)

/-- A product that is no mark has the product of the values. -/
theorem scalar_mul (I : Reading) {x y : Scalar} (h : (x * y).isOverflow = false) :
    I.scalar (x * y) = I.scalar x * I.scalar y := by
  rcases Scalar.mul_cases x y with hprod | ⟨p, q, rfl, rfl, hprod⟩
  · rw [hprod] at h
    cases h
  · rw [hprod]
    rfl

end Reading

/-! ## Polynomials -/

mutual

/-- The value of an atom. -/
def Atom.value (I : Reading) : Atom → ℚ
  | .var name => I.var name
  | .log p => I.log (Poly.value I p)
  | .min p q => Min.min (Poly.value I p) (Poly.value I q)
  | .max p q => Max.max (Poly.value I p) (Poly.value I q)
  | .exp base p => I.pow (I.scalar base) (Poly.value I p)
  | .power p e => I.pow (Poly.value I p) (I.scalar e)
  | .unresolved text => I.fragment text
  | .unknown text => I.fragment text
termination_by structural a => a

/-- The value of a monomial. -/
def Monomial.value (I : Reading) : Monomial → ℚ
  | .ofFactors fs => Atom.productValue I fs
termination_by structural m => m

/-- The value of a polynomial. -/
def Poly.value (I : Reading) : Poly → ℚ
  | .ofTerms ts => Monomial.sumValue I ts
termination_by structural p => p

/-- The product of the values of a list of factors. -/
def Atom.productValue (I : Reading) : List (Atom × Int) → ℚ
  | [] => 1
  | (a, e) :: fs => Atom.value I a ^ e * Atom.productValue I fs
termination_by structural fs => fs

/-- The sum of the values of a list of terms. -/
def Monomial.sumValue (I : Reading) : List (Monomial × Scalar) → ℚ
  | [] => 0
  | (m, c) :: ts => I.scalar c * Monomial.value I m + Monomial.sumValue I ts
termination_by structural ts => ts

end

/-- The value of a monomial as a product over its factors. -/
theorem Monomial.value_eq_prod (I : Reading) (m : Monomial) :
    m.value I = (m.factors.map fun f => f.1.value I ^ f.2).prod := by
  obtain ⟨fs⟩ := m
  show Atom.productValue I fs = (fs.map fun f => f.1.value I ^ f.2).prod
  induction fs with
  | nil => rfl
  | cons f fs ih => rw [Atom.productValue, ih, List.map_cons, List.prod_cons]

/-- The value of a polynomial as a sum over its terms. -/
theorem Poly.value_eq_sum (I : Reading) (p : Poly) :
    p.value I = (p.terms.map fun t => I.scalar t.2 * t.1.value I).sum := by
  obtain ⟨ts⟩ := p
  show Monomial.sumValue I ts = (ts.map fun t => I.scalar t.2 * t.1.value I).sum
  induction ts with
  | nil => rfl
  | cons t ts ih => rw [Monomial.sumValue, ih, List.map_cons, List.sum_cons]

theorem Poly.value_cons (I : Reading) (t : Monomial × Scalar) (ts : List (Monomial × Scalar)) :
    (ofTerms (t :: ts)).value I = I.scalar t.2 * t.1.value I + (ofTerms ts).value I := rfl

/-- A polynomial that plainly is a constant has its value. -/
theorem Poly.value_of_asConstant? (I : Reading) {p : Poly} {c : Scalar}
    (h : p.asConstant? = some c) : p.value I = I.scalar c := by
  rw [asConstant?] at h
  rw [value_eq_sum]
  split at h
  · next hterms =>
      cases h
      rw [hterms]
      rfl
  · next m c hterms =>
      split at h
      · next hone =>
          cases h
          have hvalue : m.value I = 1 := by
            rw [Monomial.value_eq_prod, List.isEmpty_iff.mp hone]
            rfl
          simp [hterms, hvalue]
      · cases h
  · cases h

/-! ## Formulas -/

namespace Formula

mutual

/-- The value of a formula. -/
noncomputable def value : Formula → Reading → ℚ
  | .num v, I => I.scalar v
  | .var name, I => I.var name
  | .unknown text, I => I.fragment text
  | .plus ts, I => sumValue ts I
  | .times fs, I => productValue fs I
  | .over a b, I => value a I / value b I
  | .raised a b, I => I.pow (value a I) (value b I)
  | .minus a, I => -value a I
  | .logOf a, I => I.log (value a I)
  | .minOf a b, I => Min.min (value a I) (value b I)
  | .maxOf a b, I => Max.max (value a I) (value b I)
  | .sumOver body index start stop, I =>
    ∑ x ∈ Finset.Icc ⌈value start I⌉ ⌊value stop I⌋, value body (I.set index x)
  | .resolved p, I => p.value I
termination_by structural e => e

/-- The sum of the values of a list of formulas. -/
noncomputable def sumValue : List Formula → Reading → ℚ
  | [], _ => 0
  | e :: es, I => value e I + sumValue es I
termination_by structural es => es

/-- The product of the values of a list of formulas. -/
noncomputable def productValue : List Formula → Reading → ℚ
  | [], _ => 1
  | e :: es, I => value e I * productValue es I
termination_by structural es => es

end

/-- The reading in which every variable has the given value and natural powers
are powers. -/
def sizedReading (n : ℕ) : Reading where
  var _ := n
  fragment _ := 0
  overflow := 0
  log x := x
  pow x y := x ^ y.num.toNat

end Formula

end CostAnalysis
