import CostAnalysis.Proofs.Poly.Elementary
import CostAnalysis.Proofs.Poly.Plain

/-!
# Powers of a constant

`Poly.exp` computes the power of a constant, takes a small offset out of the
exponent as a coefficient, or leaves an atom.  `Poly.PowerForm` lists these
forms (`powerForm_exp`), and what is said of all powers is said of each form.

* Under a reading that gives integral powers their values, the power of an
  exponent that is read as an integer denotes the power (`PowerForm.denotes`).
* A power is a single term.  If the exponent overflowed then the mark is inside
  of this term, and otherwise it is not (`PowerForm.exists_term`).  So a power
  whose exponent overflowed is never the same term as one whose exponent did
  not.

**Which form it is** depends on the exponent alone: a constant that is a small
integer, any other constant, a sum with a small integral constant in it, or none
of these.  A proof about a geometric sum has the same power at both ends of a
range and in the term, each in a form of its own.
-/

namespace CostAnalysis

open Numeric

/-- Integral powers are read as powers. -/
def Reading.ReadsIntegralPowers (I : Reading) : Prop :=
  ∀ (x : ℚ) (z : ℤ), I.pow x z = x ^ z

/-! ## Constants in a sum

The constant stands first in the order of monomials.  So it can be taken out of
a sum and put back without the other terms being looked at. -/

namespace Poly

variable {I : Reading} {p q : Poly} {r : ℚ}

theorem value_constant (I : Reading) (c : Scalar) : (constant c).value I = I.scalar c := by
  rw [constant, value_term, Monomial.value_one, mul_one]

/-- So it has the value of its scalar. -/
theorem denotes_constant (I : Reading) {c : Scalar} {x : ℚ} (hc : c.Denotes x) :
    (constant c).Denotes I x := by
  have h := Denotes.term I hc .one
  rwa [Monomial.value_one, mul_one] at h

theorem constant_ofInt {k : ℤ} (hk : k ≠ 0) : constant (.ofInt k) = ofTerms [(.one, .ofInt k)] :=
  term_eq (Scalar.isZero_ofInt_of_ne hk) .one

theorem neg_constant_ofInt {k : ℤ} (hk : k ≠ 0) (hfits : Scalar.fits k = true) :
    (constant (.ofInt k)).neg = constant (.ofInt (-k)) := by
  rw [constant, neg_term (Scalar.isZero_ofInt_of_ne hk), Scalar.neg_ofInt hfits]
  rfl

/-- A constant is written in front of the other terms. -/
theorem add_constant_new {k : ℤ} (hk : k ≠ 0) (hfits : Scalar.fits k = true) {m : Monomial}
    (hm : compare Monomial.one m = .lt) (c : Scalar) (ts : List (Monomial × Scalar)) :
    (ofTerms ((m, c) :: ts)).add (constant (.ofInt k)) =
      ofTerms ((.one, .ofInt k) :: (m, c) :: ts) := by
  rw [constant, add_term (Scalar.isZero_ofInt_of_ne hk)]
  simp only [addTerm, terms, Assoc.alter, hm, Option.getD_none,
    (Scalar.Fits.ofInt hfits).zero_add, Scalar.isZero_ofInt_of_ne hk, Bool.false_eq_true, if_false]

/-- A constant is cancelled by its opposite. -/
theorem sub_constant_self {k : ℤ} (hk : k ≠ 0) (hfits : Scalar.fits k = true)
    (ts : List (Monomial × Scalar)) :
    (ofTerms ((.one, .ofInt k) :: ts)).sub (constant (.ofInt k)) = ofTerms ts := by
  have hcmp : compare Monomial.one .one = .eq := rfl
  have hcancel : (Scalar.ofInt k + .ofInt (-k)).isZero = true := by
    rw [Scalar.ofInt_add_neg hfits]
    rfl
  rw [sub, neg_constant_ofInt hk hfits, constant,
    add_term (Scalar.isZero_ofInt_of_ne (neg_ne_zero.mpr hk))]
  simp only [addTerm, terms, Assoc.alter, hcmp, Option.getD_some, hcancel, if_true]

/-- Taking the constant out leaves a polynomial as exact as it was. -/
theorem exact_sub_constantTerm_iff {k : ℤ} (hk : p.constantTerm = .ofInt k)
    (hfits : Scalar.fits k = true) : (p.sub (constant (.ofInt k))).Exact ↔ p.Exact := by
  -- whether the difference is exact does not depend on how it is read
  refine ⟨fun h => ((Formula.sizedReading 0).evaluation.add_of_exact h).1, fun hp => ?_⟩
  by_cases hzero : k = 0
  · subst hzero
    exact hp
  obtain ⟨ts⟩ := p
  match ts with
  | [] => exact absurd (Scalar.ofInt_inj.mp hk).symm hzero
  | (.ofFactors [], c) :: ts =>
      obtain rfl : c = .ofInt k := hk
      rw [← Monomial.one, sub_constant_self hzero hfits]
      exact (List.forall_mem_cons.mp hp).2
  | (.ofFactors (f :: fs), c) :: ts =>
      -- terms out of order: no constant stands first, so the opposite is a term
      -- of its own
      rw [sub, neg_constant_ofInt hzero hfits,
        add_constant_new (neg_ne_zero.mpr hzero) (Scalar.fits_neg hfits) rfl]
      exact List.forall_mem_cons.mpr ⟨rfl, hp⟩

/-! ## The forms of a power -/

/-- The forms that the power of a constant is kept in. -/
inductive PowerForm (r : ℚ) (p : Poly) : Poly → Prop
  /-- The exponent is a small integer, and the power is computed. -/
  | computed {k : ℤ} {x : Scalar} (hp : p.asConstant? = some (.ofInt k)) (hx : x.IsCoefficient)
      (hdenotes : x.Denotes (r ^ k)) : PowerForm r p (constant x)
  /-- The exponent is another constant. -/
  | fixed {c : Scalar} (hp : p.asConstant? = some c) :
      PowerForm r p (ofAtom (.power (constant (.exact r)) c))
  /-- A small offset of the exponent has become a coefficient. -/
  | offset {k : ℤ} {x : Scalar} (hp : p.constantTerm = .ofInt k) (hk : k ≠ 0)
      (hsmall : k.natAbs ≤ 64) (hx : x.IsCoefficient) (hdenotes : x.Denotes (r ^ k)) :
      PowerForm r p (term x (.of (.exp (.exact r) (p.sub (constant (.ofInt k)))) 1))
  /-- The exponent has no such offset and is kept as it is. -/
  | whole (hp : ∀ k : ℤ, p.constantTerm = .ofInt k → k.natAbs ≤ 64 → k = 0) :
      PowerForm r p (ofAtom (.exp (.exact r) p))

/-- Factors of a constant are multiplied into one constant. -/
theorem exists_powFrom_constant (hr : r ≠ 0) (k : ℕ) {x : Scalar} {y : ℚ} (hx : x.IsCoefficient)
    (hdenotes : x.Denotes y) :
    ∃ z : Scalar, powFrom (constant (.exact r)) (constant x) k = constant z ∧ z.IsCoefficient ∧
      z.Denotes (y * r ^ k) := by
  induction k generalizing x y with
  | zero =>
      rw [pow_zero, mul_one]
      exact ⟨x, rfl, hx, hdenotes⟩
  | succ k ih =>
      have hr0 := Scalar.isZero_exact_of_ne hr
      have hproduct : (constant x).mul (constant (.exact r)) = constant (x * .exact r) :=
        term_mul_term hx.ne_zero hr0 .one .one
      rw [powFrom, hproduct, pow_succ', ← mul_assoc]
      exact ih (.mul hx.ne_zero hr0) (hdenotes.mul (.exact r))

/-- A small integral power of a constant is a constant. -/
theorem exists_powInt_constant (hfits : (Scalar.exact r).Fits) (hr : r ≠ 0) {k : ℤ}
    (hk : -64 ≤ k) :
    ∃ z : Scalar, (constant (.exact r)).powInt k = constant z ∧ z.IsCoefficient ∧
      z.Denotes (r ^ k) := by
  rw [powInt]
  split
  · next hneg =>
      obtain ⟨z, hz, hcoefficient, hdenotes⟩ := hfits.exists_pow? hr k
      have hword : wrapSigned 32 k = k :=
        wrapSigned_of_fitsSigned (by decide) (fitsSigned_iff.mpr (by omega))
      have hterm : (constant (.exact r)).singleTerm? = some (.one, .exact r) := by
        rw [constant, term_eq (Scalar.isZero_exact_of_ne hr)]
        rfl
      simp only [hterm, hword, hz]
      exact ⟨z, rfl, hcoefficient, hdenotes⟩
  · next hnonneg =>
      obtain ⟨z, hz, hcoefficient, hdenotes⟩ :=
        exists_powFrom_constant hr k.natAbs .one (.exact 1)
      rw [one_mul, ← zpow_natCast, Int.natAbs_of_nonneg (not_lt.mp hnonneg)] at hdenotes
      exact ⟨z, hz, hcoefficient, hdenotes⟩

/-- **Powers**: what `Poly.exp` makes, for every exponent. -/
theorem powerForm_exp (hfits : (Scalar.exact r).Fits) (hr : r ≠ 0) (hne : r ≠ 1) (p : Poly) :
    PowerForm r p (exp (.exact r) p) := by
  have hone := Scalar.isOne_exact_of_ne hne
  have hzero := Scalar.isZero_exact_of_ne hr
  simp only [exp, hone, hzero, Bool.false_eq_true, if_false]
  split
  · next c hc =>
      rw [powRational]
      split
      -- a constant exponent that is a small integer: the power is computed
      · next k hk =>
          obtain ⟨hint, hrange⟩ := Option.filter_eq_some_iff.mp hk
          simp only [Bool.and_eq_true, decide_eq_true_eq] at hrange
          obtain ⟨z, hz, hcoefficient, hdenotes⟩ := exists_powInt_constant hfits hr hrange.1
          rw [hz]
          exact .computed (Scalar.eq_ofInt_of_toInt? hint ▸ hc) hcoefficient hdenotes
      -- any other constant exponent leaves an atom of the base
      · have hterm : constant (.exact r) = ofTerms [(.one, .exact r)] := term_eq hzero .one
        have hsingle : (constant (.exact r)).singleTerm? = some (.one, .exact r) := by
          rw [hterm]
          rfl
        have hnonempty : (constant (.exact r)).isZero = false := by
          rw [hterm]
          rfl
        simp only [hsingle, hone, hnonempty, Option.bind_eq_bind, Option.bind_some,
          Bool.false_eq_true, if_false]
        exact .fixed hc
  -- an exponent that is no constant: a small offset is taken out of it
  · cases hk : p.constantTerm.toInt? with
    | none =>
        refine .whole fun k hterm _ => ?_
        rw [hterm, Scalar.toInt?_ofInt] at hk
        cases hk
    | some k =>
        have hterm := Scalar.eq_ofInt_of_toInt? hk
        obtain ⟨x, hpow, hx, hdenotes⟩ := hfits.exists_pow? hr k
        simp only [Option.bind_eq_bind, Option.bind_some, hpow]
        by_cases hoffset : k ≠ 0 ∧ k.natAbs ≤ 64
        · simp only [hoffset, ne_eq, not_false_eq_true, decide_true, Bool.and_self, if_true]
          rw [hterm, ofAtom, scale_term rfl hx.ne_zero, hx.bounded.one_mul]
          exact .offset hterm hoffset.1 hoffset.2 hx hdenotes
        · have hnone : (k ≠ 0 && k.natAbs ≤ 64) = false := by simpa using hoffset
          simp only [hnone, Bool.false_eq_true, if_false]
          refine .whole fun k' hterm' hsmall => ?_
          obtain rfl := Scalar.ofInt_inj.mp (hterm.symm.trans hterm')
          by_contra hnonzero
          exact hoffset ⟨hnonzero, hsmall⟩

namespace PowerForm

/-- An atom alone has the value of the atom. -/
theorem ofAtom_denotes (I : Reading) (a : Atom) : (ofAtom a).Denotes I (a.value I) := by
  have h := Denotes.term I (.exact 1) (.of a 1)
  rwa [Monomial.value_of, zpow_one, one_mul] at h

/-- **What a power denotes.**  Where the exponent is read as an integer, every
form denotes the power. -/
theorem denotes (h : PowerForm r p q) (hI : I.ReadsIntegralPowers) (hr : r ≠ 0) (hp : p.Exact)
    {z : ℤ} (hz : p.value I = z) : q.Denotes I (r ^ z) := by
  cases h with
  | computed hc hx hdenotes =>
      have hvalue := value_of_asConstant? I hc
      rw [hz, Scalar.ofInt_eq, I.scalar_exact, Int.cast_inj] at hvalue
      rw [hvalue]
      exact denotes_constant I hdenotes
  | @fixed c hc =>
      have hatom := ofAtom_denotes I (.power (constant (.exact r)) c)
      rw [Atom.value, value_constant, I.scalar_exact, ← value_of_asConstant? I hc, hz, hI] at hatom
      exact hatom
  | @offset k x hterm hk hsmall hx hdenotes =>
      -- the offset was subtracted from the exponent, and its power is the
      -- coefficient
      have hrest := (exact_sub_constantTerm_iff hterm (Scalar.fits_iff.mpr (by omega))).mpr hp
      have hvalue : (p.sub (constant (.ofInt k))).value I = ((z - k : ℤ) : ℚ) := by
        rw [Int.cast_sub]
        exact Denotes.sub (fun _ => hz) (denotes_constant I (.exact k)) hrest
      have hpower := Denotes.term I hdenotes (.of (.exp (.exact r) (p.sub (constant (.ofInt k)))) 1)
      rw [Monomial.value_of, zpow_one, Atom.value, I.scalar_exact, hvalue, hI, ← zpow_add₀ hr,
        add_sub_cancel] at hpower
      exact hpower
  | whole =>
      have hatom := ofAtom_denotes I (.exp (.exact r) p)
      rw [Atom.value, I.scalar_exact, hz, hI] at hatom
      exact hatom

end PowerForm

end Poly

/-! ## Marks in an exponent

Whether the exponent of an atom is marked tells the two powers of a closed form
apart.  All that is said of terms is therefore whether they have such a
factor. -/

/-- The exponent is the mark of an overflow or has it among its coefficients. -/
def Atom.HasMarkedExponent : Atom → Prop
  | .exp _ p => ¬p.Exact
  | .power _ e => e.isOverflow = true
  | _ => False

/-- A mark in the exponent of an atom is a mark in the atom. -/
theorem Atom.HasMarkedExponent.hasOverflow {a : Atom} (h : a.HasMarkedExponent) :
    a.hasOverflow = true := by
  cases a with
  | exp base p =>
      have hp : p.hasOverflow = true := by
        by_contra hexact
        exact h (Poly.exact_of_hasOverflow (Bool.eq_false_iff.mpr hexact))
      rw [Atom.hasOverflow, hp, Bool.or_true]
  | power p e =>
      have he : e.isOverflow = true := h
      rw [Atom.hasOverflow, he, Bool.true_or]
  | _ => cases h

/-- A monomial with a marked exponent among its factors. -/
def Monomial.HasMarkedExponent (m : Monomial) : Prop :=
  ∃ f ∈ m.factors, f.1.HasMarkedExponent

theorem Monomial.HasMarkedExponent.hasOverflow {m : Monomial} (h : m.HasMarkedExponent) :
    m.hasOverflow = true := by
  obtain ⟨fs⟩ := m
  obtain ⟨f, hf, hmark⟩ := h
  change Atom.anyOverflow fs = true
  simp only [factors] at hf
  induction fs with
  | nil => cases hf
  | cons g fs ih =>
      rw [Atom.anyOverflow, Bool.or_eq_true]
      rcases List.mem_cons.mp hf with rfl | hf
      · exact Or.inl hmark.hasOverflow
      · exact Or.inr (ih hf)

/-- The empty product is neutral for the monomial.  It is not for a monomial
whose factors are out of order or have the exponent zero. -/
def Monomial.IsUnital (m : Monomial) : Prop :=
  Monomial.one.mul m = m

namespace Poly

variable {I : Reading} {p q : Poly} {r : ℚ} {m n : Monomial}

/-- **A power is one term**, and its exponent is marked just if the power is one
of an inexact polynomial. -/
theorem PowerForm.exists_term (h : PowerForm r p q) :
    ∃ m x, q = term x m ∧ x.IsCoefficient ∧ m.IsUnital ∧ (m.HasMarkedExponent ↔ ¬p.Exact) := by
  have hfactor : ∀ a : Atom, (Monomial.of a 1).HasMarkedExponent ↔ a.HasMarkedExponent := by
    intro a
    simp [Monomial.HasMarkedExponent, Monomial.of, Monomial.factors]
  cases h with
  | @computed k x hp hx hdenotes =>
      have hexact : p.Exact := (exact_iff_of_asConstant? hp).mpr rfl
      refine ⟨.one, x, rfl, hx, rfl, iff_of_false ?_ (not_not_intro hexact)⟩
      rintro ⟨f, hf, -⟩
      cases hf
  | @fixed c hp =>
      refine ⟨_, 1, rfl, .one, rfl, (hfactor _).trans ?_⟩
      rw [exact_iff_of_asConstant? hp, Bool.not_eq_false]
      rfl
  | @offset k x hp hk hsmall hx hdenotes =>
      refine ⟨_, x, rfl, hx, rfl, (hfactor _).trans ?_⟩
      rw [← exact_sub_constantTerm_iff hp (Scalar.fits_iff.mpr (by omega))]
      rfl
  | whole => exact ⟨_, 1, rfl, .one, rfl, hfactor _⟩

/-- The monomials of a power are those of an atom alone, or none. -/
theorem PowerForm.over_isUnital (h : PowerForm r p q) : q.Over Monomial.IsUnital := by
  obtain ⟨m, x, rfl, -, hm, -⟩ := h.exists_term
  exact .term x hm

end Poly

end CostAnalysis
