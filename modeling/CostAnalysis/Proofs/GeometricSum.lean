import CostAnalysis.Algebra.Summation
import CostAnalysis.Proofs.Poly.ConstantPower
import Mathlib.Algebra.BigOperators.Ring.Finset
import Mathlib.Algebra.Order.BigOperators.Group.Finset
import Mathlib.Algebra.Order.Interval.Finset.SuccPred
import Mathlib.Data.Int.SuccPred

/-!
# Geometric sums

A term `c · r ^ (α · index + β)` is summed as a geometric series.  The closed
form divides the difference of two powers by `r ^ α - 1`, and it is an identity
over every range of integers that is at least empty, for exponents of either
sign (`sum_Icc_zpow`).  The two powers of the closed form, and the one in the
term itself, may have any of the forms of `Poly.PowerForm`.

**Marks that are lost.**  An overflow leaves its mark, with two exceptions.  The
slope `α` is narrowed to a 32-bit word before the ratio is computed, and if the
exponents at both ends of the range overflow, the two powers may be the same
atom and cancel.  In both cases the sum is wrong without a mark
(`value_sumOver_geometric_narrowed`).

**Marks that are kept.**  If just one of these exponents overflows, the two
powers are different terms, which nothing in the closed form brings together
again (`PowerForm.hasOverflow_closedForm`).  So where the slope fits its word
and the two exponents do not both overflow, a result without a mark is the sum
(`value_sumOver_geometric`).
-/

namespace CostAnalysis

open Finset Numeric

/-! ## The series -/

/-- **The geometric series** over a range of integers, which may be empty but
not less. -/
theorem sum_Icc_zpow {r : ℚ} {α : ℤ} (hr : r ≠ 0) (hratio : r ^ α ≠ 1) (β : ℤ) {s t : ℤ}
    (hst : s - 1 ≤ t) :
    ∑ x ∈ Icc s t, r ^ (α * x + β) =
      (r ^ (α * (t + 1) + β) - r ^ (α * s + β)) / (r ^ α - 1) := by
  have hne : r ^ α - 1 ≠ 0 := sub_ne_zero.mpr hratio
  induction t, hst using Int.leInduction with
  | base => simp
  | succ t ht ih =>
      have hstep : r ^ (α * (t + 1 + 1) + β) = r ^ α * r ^ (α * (t + 1) + β) := by
        rw [← zpow_add₀ hr]
        congr 1
        ring
      rw [← insert_Icc_right_eq_Icc_add_one (by omega), sum_insert (by simp), ih, hstep,
        eq_div_iff hne, add_mul, div_mul_cancel₀ _ hne]
      ring

/-! ## Powers that do not cancel

A mark is lost only if the term that it stands in disappears.  So it is shown
that the two powers in a closed form are different terms, and stay so when they
are scaled and multiplied by a constant. -/

namespace Poly

variable {I : Reading} {p p' q q' : Poly} {m n : Monomial} {r : ℚ}

/-- The polynomial has two terms, with the given monomials in any order. -/
def TwoTerms (m n : Monomial) (p : Poly) : Prop :=
  ∃ x y : Scalar, x.IsCoefficient ∧ y.IsCoefficient ∧
    (p = ofTerms [(m, x), (n, y)] ∨ p = ofTerms [(n, y), (m, x)])

/-- The order does not matter. -/
theorem TwoTerms.symm (h : TwoTerms m n p) : TwoTerms n m p := by
  obtain ⟨x, y, hx, hy, h⟩ := h
  exact ⟨y, x, hy, hx, h.symm⟩

/-- Different monomials do not meet in a sum. -/
theorem twoTerms_add (hmn : m ≠ n) {x y : Scalar} (hx : x.IsCoefficient) (hy : y.IsCoefficient) :
    TwoTerms m n ((term x m).add (term y n)) := by
  refine ⟨x, y, hx, hy, ?_⟩
  rw [add_term hy.ne_zero, term_eq hx.ne_zero]
  simp only [addTerm, terms, Assoc.alter]
  cases hcmp : compare n m with
  | lt => simp [hy.bounded.zero_add, hy.ne_zero]
  | eq => exact absurd (Monomial.eq_of_cmp n m hcmp).symm hmn
  | gt => simp [hy.bounded.zero_add, hy.ne_zero]

namespace TwoTerms

/-- Adding it to nothing keeps the two terms. -/
theorem zero_add (hmn : m ≠ n) (h : TwoTerms m n p) : TwoTerms m n (zero.add p) := by
  obtain ⟨x, y, hx, hy, rfl | rfl⟩ := h
  · show TwoTerms m n ((zero.addTerm m x).addTerm n y)
    rw [zero_addTerm hx, ← add_term hy.ne_zero]
    exact twoTerms_add hmn hx hy
  · show TwoTerms m n ((zero.addTerm n y).addTerm m x)
    rw [zero_addTerm hy, ← add_term hx.ne_zero]
    exact (twoTerms_add hmn.symm hy hx).symm

theorem constant_mul (hmn : m ≠ n) (hm : m.IsUnital) (hn : n.IsUnital) {c : Scalar}
    (hc : c.isZero = false) (h : TwoTerms m n p) : TwoTerms m n ((constant c).mul p) := by
  have hproduct : ∀ {a b : Monomial} {x y : Scalar}, a.IsUnital → b.IsUnital → x.IsCoefficient →
      (constant c).mul (ofTerms [(a, x), (b, y)]) =
        (term (c * x) a).add (term (c * y) b) := by
    intro a b x y ha hb hx
    have hcx := Scalar.IsCoefficient.mul hc hx.ne_zero
    rw [constant, term_eq hc]
    show (zero.add (term (c * x) (Monomial.one.mul a))).add
      (term (c * y) (Monomial.one.mul b)) = _
    rw [ha, hb, add_term hcx.ne_zero, zero_addTerm hcx]
  obtain ⟨x, y, hx, hy, rfl | rfl⟩ := h
  · rw [hproduct hm hn hx]
    exact twoTerms_add hmn (.mul hc hx.ne_zero) (.mul hc hy.ne_zero)
  · rw [hproduct hn hm hy]
    exact (twoTerms_add hmn.symm (.mul hc hy.ne_zero) (.mul hc hx.ne_zero)).symm

theorem scale (h : TwoTerms m n p) {c : Scalar} (hc : c.isZero = false) :
    TwoTerms m n (p.scale c) := by
  obtain ⟨x, y, hx, hy, h⟩ := h
  refine ⟨x * c, y * c, .mul hx.ne_zero hc, .mul hy.ne_zero hc, ?_⟩
  rw [Poly.scale, hc, if_neg Bool.false_ne_true]
  rcases h with rfl | rfl
  · exact Or.inl rfl
  · exact Or.inr rfl

/-- A mark in an exponent is a mark of the whole. -/
theorem hasOverflow (h : TwoTerms m n p) (hmark : m.HasMarkedExponent ∨ n.HasMarkedExponent) :
    p.hasOverflow = true := by
  have hoverflow : m.hasOverflow = true ∨ n.hasOverflow = true :=
    hmark.imp Monomial.HasMarkedExponent.hasOverflow Monomial.HasMarkedExponent.hasOverflow
  obtain ⟨x, y, -, -, rfl | rfl⟩ := h <;>
    rcases hoverflow with hm | hm <;> simp [Poly.hasOverflow, Monomial.anyOverflow, hm]

end TwoTerms

/-- **Marks that are kept.**  If just one of two exponents overflowed, the
powers do not cancel, and the closed form holds the mark. -/
theorem PowerForm.hasOverflow_closedForm (hupper : PowerForm r p q) (hlower : PowerForm r p' q')
    (hdiffer : ¬(p.Exact ↔ p'.Exact)) {outer inverse : Scalar} (houter : outer.isZero = false)
    (hinverse : inverse.isZero = false) :
    (zero.add (((constant outer).mul (q.sub q')).scale inverse)).hasOverflow = true := by
  obtain ⟨m, x, rfl, hx, hm, hupper⟩ := hupper.exists_term
  obtain ⟨n, y, rfl, hy, hn, hlower⟩ := hlower.exists_term
  have hmn : m ≠ n := by
    rintro rfl
    exact hdiffer (not_iff_not.mp (hupper.symm.trans hlower))
  have hmark : m.HasMarkedExponent ∨ n.HasMarkedExponent := by
    rw [hupper, hlower, ← not_and_or]
    exact fun hboth => hdiffer (iff_of_true hboth.1 hboth.2)
  have hdifference : TwoTerms m n ((term x m).sub (term y n)) := by
    rw [sub, neg_term hy.ne_zero]
    exact twoTerms_add hmn hx hy.neg
  have hproduct := hdifference.constant_mul hmn hm hn houter
  exact ((hproduct.scale hinverse).zero_add hmn).hasOverflow hmark

/-- A constant is multiplied in. -/
theorem Denotes.constant_mul {x : ℚ} (hp : p.Denotes I x) (hunital : p.Over Monomial.IsUnital)
    {c : Scalar} {a : ℚ} (hc : c.Denotes a) : ((constant c).mul p).Denotes I (a * x) := by
  refine (denotes_constant I hc).mul hp fun t ht u hu => ?_
  have hconstant : (constant c).Over (· = .one) := .term c rfl
  have hneutral : Monomial.one.mul u.1 = u.1 := hunital u hu
  rw [hconstant t ht, hneutral, Monomial.value_one, one_mul]

/-! ## A term with a linear exponent

The summation is found by taking the exponent apart again into slope and offset.
An offset that is small is turned into a coefficient, and a larger one stays in
the exponent, so both forms have to be followed up to the ends of the range. -/

/-- The polynomial `α · v + β`. -/
def linear (v : String) (α β : ℤ) : Poly :=
  ((var v).scale (.ofInt α)).add (constant (.ofInt β))

/-- The term `c · r ^ (α · v + β)`. -/
def geometricTerm (c r : ℚ) (v : String) (α β : ℤ) : Poly :=
  (exp (.exact r) (linear v α β)).scale (.exact c)

/-- The part of an offset that stays in the exponent; a small one becomes a
coefficient. -/
def keptOffset (β : ℤ) : ℤ :=
  if β.natAbs ≤ 64 then 0 else β

/-- The exponent at an end of the range, with what stays in it of the offset. -/
def endExponent (α β : ℤ) (p : Poly) : Poly :=
  (p.scale (.ofInt α)).add (constant (.ofInt (keptOffset β)))

variable {v : String} {α β : ℤ}

theorem compare_one_of (a : Atom) : compare Monomial.one (.of a 1) = .lt := rfl

/-- Without an offset there is one term. -/
theorem linear_zero (hα : α ≠ 0) (hfits : Scalar.fits α = true) :
    linear v α 0 = ofTerms [(.of (.var v) 1, .ofInt α)] := by
  show (var v).scale (.ofInt α) = _
  rw [scale, Scalar.isZero_ofInt_of_ne hα, if_neg Bool.false_ne_true]
  show ofTerms [(.of (.var v) 1, 1 * .ofInt α)] = _
  rw [(Scalar.Fits.ofInt hfits).one_mul]

theorem linear_of_ne (hα : α ≠ 0) (hαfits : Scalar.fits α = true) (hβ : β ≠ 0)
    (hβfits : Scalar.fits β = true) :
    linear v α β = ofTerms [(.one, .ofInt β), (.of (.var v) 1, .ofInt α)] := by
  have hmultiple : (var v).scale (.ofInt α) = linear v α 0 := rfl
  rw [linear, hmultiple, linear_zero hα hαfits, add_constant_new hβ hβfits (compare_one_of _)]

/-- Taking the offset out of a linear polynomial. -/
theorem linear_sub (hα : α ≠ 0) (hαfits : Scalar.fits α = true) (hβ : β ≠ 0)
    (hβfits : Scalar.fits β = true) :
    (linear v α β).sub (constant (.ofInt β)) = linear v α 0 := by
  rw [linear_of_ne hα hαfits hβ hβfits, sub_constant_self hβ hβfits, linear_zero hα hαfits]

section Linear

variable (hα : α ≠ 0) (hαfits : Scalar.fits α = true) (hβfits : Scalar.fits β = true)
include hα hαfits hβfits

/-- The terms of a linear polynomial: the offset if there is one, and the
multiple. -/
theorem linear_cases (v : String) :
    β = 0 ∧ linear v α β = ofTerms [(.of (.var v) 1, .ofInt α)] ∨
      β ≠ 0 ∧ linear v α β = ofTerms [(.one, .ofInt β), (.of (.var v) 1, .ofInt α)] := by
  by_cases hβ : β = 0
  · subst hβ
    exact Or.inl ⟨rfl, linear_zero hα hαfits⟩
  · exact Or.inr ⟨hβ, linear_of_ne hα hαfits hβ hβfits⟩

/-- The exponent mentions its variable. -/
theorem mentions_linear : (linear v α β).mentions v = true := by
  have hvar : (Monomial.of (.var v) 1).mentions v = true := by
    simp [Monomial.of, Monomial.mentions, Atom.anyMentions, Atom.mentions]
  rcases linear_cases hα hαfits hβfits v with ⟨-, h⟩ | ⟨-, h⟩ <;>
    simp [h, Poly.mentions, Monomial.anyMentions, hvar]

theorem hasOpaque_linear : (linear v α β).hasOpaque = false := by
  rcases linear_cases hα hαfits hβfits v with ⟨-, h⟩ | ⟨-, h⟩ <;> rw [h] <;> rfl

theorem asConstant?_linear : (linear v α β).asConstant? = none := by
  rcases linear_cases hα hαfits hβfits v with ⟨-, h⟩ | ⟨-, h⟩ <;> rw [h] <;> rfl

theorem constantTerm_linear : (linear v α β).constantTerm = .ofInt β := by
  rcases linear_cases hα hαfits hβfits v with ⟨rfl, h⟩ | ⟨-, h⟩ <;> rw [h] <;> rfl

/-- A linear polynomial is taken apart into the slope and the offset. -/
theorem linearIn?_linear :
    Summation.linearIn? (linear v α β) v = some (.ofInt α, constant (.ofInt β)) := by
  have hone : Monomial.one.splitVar v = (0, .one) := rfl
  have hvar : (Monomial.of (.var v) 1).splitVar v = (1, .one) := by
    have hcmp : compare (Atom.var v) (.var v) = .eq := by simp [Atom.compare_var]
    simp [Monomial.of, Monomial.splitVar, Monomial.exponentOf, Monomial.factors, Monomial.one,
      Assoc.find?, Assoc.erase, Assoc.alter, hcmp]
  have hmentions : Monomial.one.mentions v = false := rfl
  have hisOne : Monomial.one.isOne = true := rfl
  have hslope : (0 : Scalar) + .ofInt α = .ofInt α := (Scalar.Fits.ofInt hαfits).zero_add
  rcases linear_cases hα hαfits hβfits v with ⟨rfl, h⟩ | ⟨hβ, h⟩
  · have hoffset : zero = constant (.ofInt 0) := rfl
    simp [h, Summation.linearIn?, terms, hvar, hslope, hisOne, hoffset]
  · have hcoefficient : (Scalar.ofInt β).IsCoefficient :=
      ⟨(Scalar.Fits.ofInt hβfits).bounded, Scalar.isZero_ofInt_of_ne hβ⟩
    have hoffset : zero.add (term (.ofInt β) .one) = constant (.ofInt β) := by
      rw [add_term hcoefficient.ne_zero, zero_addTerm hcoefficient]
      rfl
    simp [h, Summation.linearIn?, terms, hone, hvar, hslope, hmentions, hisOne, hoffset]

/-- **The power of a linear polynomial** is one atom, with what a small offset
makes of it as the coefficient. -/
theorem exists_exp_linear (hfits : (Scalar.exact r).Fits) (hr : r ≠ 0) (hne : r ≠ 1)
    (v : String) :
    ∃ x : Scalar, x.IsCoefficient ∧ x.Denotes (r ^ (β - keptOffset β)) ∧
      exp (.exact r) (linear v α β) =
        term x (.of (.exp (.exact r) (linear v α (keptOffset β))) 1) := by
  have hconstant : (linear v α β).asConstant? = none := asConstant?_linear hα hαfits hβfits
  have hterm : (linear v α β).constantTerm = .ofInt β := constantTerm_linear hα hαfits hβfits
  have hform := powerForm_exp hfits hr hne (linear v α β)
  generalize exp (.exact r) (linear v α β) = q at hform ⊢
  -- a linear exponent is no constant, so two of the forms are excluded
  cases hform with
  | computed hp => cases hconstant.symm.trans hp
  | fixed hp => cases hconstant.symm.trans hp
  | offset hp hk hsmall hx hdenotes =>
      obtain rfl := Scalar.ofInt_inj.mp (hterm.symm.trans hp)
      have hkept : keptOffset β = 0 := if_pos hsmall
      rw [hkept, sub_zero, linear_sub hα hαfits hk hβfits]
      exact ⟨_, hx, hdenotes, rfl⟩
  | whole hp =>
      have hkept : keptOffset β = β := by
        rw [keptOffset]
        split
        · next hsmall => exact (hp β hterm hsmall).symm
        · rfl
      rw [hkept, sub_self, zpow_zero]
      exact ⟨1, .one, .exact 1, rfl⟩

end Linear

/-- What is kept of the offset fits. -/
theorem fits_keptOffset (hβ : Scalar.fits β = true) : Scalar.fits (keptOffset β) = true := by
  rw [keptOffset]
  split
  · decide
  · exact hβ

/-- Scaling a constant by one changes nothing. -/
theorem constant_scale_one {k : ℤ} (hfits : Scalar.fits k = true) :
    (constant (.ofInt k)).scale (.ofInt 1) = constant (.ofInt k) := by
  by_cases hk : k = 0
  · subst hk
    rfl
  · rw [constant_ofInt hk]
    show ofTerms [(.one, .ofInt k * 1)] = _
    rw [(Scalar.Fits.ofInt hfits).mul_one]

end Poly

/-! ## The closed form

The ratio and the reciprocal of its difference from one are numbers, the two
powers are polynomials.  What is shown is that no scalar is computed wrongly
without a mark, and that a mark in one of the powers is a mark in the
difference. -/

namespace Summation

open CostAnalysis.Poly

variable {r : ℚ} {α β : ℤ} {v : String}

/-- The ratio of the series is not one, so the closed form divides by its
distance from one. -/
theorem exists_inverse (hfits : (Scalar.exact r).Fits) (hpos : 0 < r) (hne : r ≠ 1) (hα : α ≠ 0) :
    r ^ α ≠ 1 ∧ ∃ ratio inverse : Scalar, (Scalar.exact r).pow? α = some ratio ∧
      ratio.isOne = false ∧ (1 : Scalar).div? (ratio - 1) = some inverse ∧
      inverse.isZero = false ∧ inverse.Denotes (1 / (r ^ α - 1)) := by
  -- a positive number that is not one has no power that is one
  have hratio : r ^ α ≠ 1 := by
    rwa [Ne, zpow_eq_one_iff_right₀ hpos.le hne]
  obtain ⟨ratio, hpow, -, hdenotes⟩ := hfits.exists_pow? hpos.ne' α
  have hdifference : (ratio - 1).Denotes (r ^ α - 1) := by
    rw [sub_eq_add_neg]
    exact hdenotes.add (Scalar.Denotes.exact 1).neg
  have hcoefficient : (ratio - 1).IsCoefficient := by
    refine ⟨Scalar.bounded_add _ _, ?_⟩
    rw [Bool.eq_false_iff]
    intro hzero
    exact sub_ne_zero.mpr hratio (hdifference.eq_zero hzero)
  obtain ⟨s, hs, hs0⟩ := hcoefficient.recip?
  have hdiv : (1 : Scalar).div? (ratio - 1) = some (1 * s) := by
    rw [Scalar.div?, hs]
    rfl
  refine ⟨hratio, ratio, 1 * s, hpow, ?_, hdiv, (Scalar.IsCoefficient.mul rfl hs0.ne_zero).ne_zero,
    (Scalar.Denotes.exact 1).div? hdifference hdiv⟩
  -- the ratio may be the mark of an overflow, which is not one either
  rcases hdenotes with rfl | rfl
  · exact Scalar.isOne_exact_of_ne hratio
  · rfl

/-- An exponential that mentions the index is summed as a geometric series. -/
theorem termSum?_exp {p : Poly} (hp : p.mentions v = true) (c base : Scalar) (start stop : Poly) :
    termSum? c (.of (.exp base p) 1) v start stop =
      geometric? (Poly.constant c) base p 1 v start stop := by
  have hsplit : (Monomial.of (.exp base p) 1).splitVar v = (0, .of (.exp base p) 1) := rfl
  have hmentions : (Atom.exp base p).mentions v = true := hp
  have hfactors : (Monomial.of (.exp base p) 1).factors = [(.exp base p, 1)] := rfl
  simp only [termSum?, hsplit, hfactors, hmentions, List.filter_cons_of_pos, List.filter_nil,
    Bool.not_true, Bool.false_eq_true, not_false_eq_true, List.filter_cons_of_neg, List.foldl_nil,
    if_true]
  rfl

section Closed

variable (hfits : (Scalar.exact r).Fits) (hpos : 0 < r) (hne : r ≠ 1) (hα : α ≠ 0)
  (hlow : -2 ^ 31 ≤ α) (hhigh : α < 2 ^ 31) (hβ : Scalar.fits β = true)
include hfits hpos hne hα hlow hhigh hβ

/-- The closed form of a geometric series. -/
theorem exists_geometric? (outer start stop : Poly) :
    ∃ inverse : Scalar, inverse.isZero = false ∧ inverse.Denotes (1 / (r ^ α - 1)) ∧
      geometric? outer (.exact r) (linear v α (keptOffset β)) 1 v start stop =
        some ((outer.mul ((exp (.exact r) (endExponent α β (stop.add one))).sub
          (exp (.exact r) (endExponent α β start)))).scale inverse) := by
  have hαfits : Scalar.fits α = true := Scalar.fits_iff.mpr (by omega)
  have hkept := fits_keptOffset hβ
  have hslope : Scalar.ofInt α * .ofInt 1 = .ofInt α := (Scalar.Fits.ofInt hαfits).mul_one
  obtain ⟨-, ratio, inverse, hpow, hone, hdiv, hinverse, hdenotes⟩ :=
    exists_inverse hfits hpos hne hα
  have hword : wrapSigned 32 α = α :=
    wrapSigned_of_fitsSigned (by decide) (fitsSigned_iff.mpr ⟨hlow, hhigh⟩)
  refine ⟨inverse, hinverse, hdenotes, ?_⟩
  simp only [geometric?, linearIn?_linear hα hαfits hkept, hslope, constant_scale_one hkept,
    Scalar.toInt?_ofInt, hword, hpow, hone, hdiv, Option.bind_eq_bind,
    Option.bind_some, Bool.false_eq_true, if_false, endExponent]
  rfl

/-- The sum of a geometric term is closed, and this is its closed form. -/
theorem exists_sumOver {c : ℚ} (hc : c ≠ 0) (start stop : Poly) :
    ∃ outer inverse : Scalar, outer.isZero = false ∧ outer.Denotes (r ^ (β - keptOffset β) * c) ∧
      inverse.isZero = false ∧ inverse.Denotes (1 / (r ^ α - 1)) ∧
      (geometricTerm c r v α β).sumOver v start stop =
        ⟨zero.add (((Poly.constant outer).mul
          ((exp (.exact r) (endExponent α β (stop.add one))).sub
            (exp (.exact r) (endExponent α β start)))).scale inverse), []⟩ := by
  have hαfits : Scalar.fits α = true := Scalar.fits_iff.mpr (by omega)
  have hkept := fits_keptOffset hβ
  obtain ⟨x, hx, hdenotes, hexp⟩ := exists_exp_linear hα hαfits hβ hfits hpos.ne' hne v
  have hc0 := Scalar.isZero_exact_of_ne hc
  have hproduct := Scalar.IsCoefficient.mul hx.ne_zero hc0
  obtain ⟨inverse, hinverse, hinverseDenotes, hclosed⟩ := exists_geometric? (v := v) hfits hpos hne
    hα hlow hhigh hβ (Poly.constant (x * .exact c)) start stop
  refine ⟨x * .exact c, inverse, hproduct.ne_zero, hdenotes.mul (.exact c), hinverse,
    hinverseDenotes, ?_⟩
  -- the summand is a single term, so the sum over all terms is the sum of this
  -- one
  have hterm : geometricTerm c r v α β =
      ofTerms [(.of (.exp (.exact r) (linear v α (keptOffset β))) 1, x * .exact c)] := by
    rw [geometricTerm, hexp, scale_term hx.ne_zero hc0, term_eq hproduct.ne_zero]
  have hopaque : (Atom.exp (.exact r) (linear v α (keptOffset β))).isOpaque = false :=
    hasOpaque_linear hα hαfits hkept
  have hfactors : (Monomial.of (.exp (.exact r) (linear v α (keptOffset β))) 1).factors =
      [(.exp (.exact r) (linear v α (keptOffset β)), 1)] := rfl
  rw [hterm, sumOver]
  simp only [terms, List.foldl_cons, List.foldl_nil, SumOutcome.addTerm, hfactors, List.any_cons,
    List.any_nil, hopaque, Bool.false_and, Bool.or_self, Bool.false_eq_true, if_false,
    termSum?_exp (mentions_linear hα hαfits hkept), hclosed]

end Closed

end Summation

namespace Poly

variable {I : Reading} {r : ℚ} {α β : ℤ} {v : String}

/-- An end of the range whose exponent did not overflow is read as its
exponent. -/
theorem value_endExponent {p : Poly} (hexact : (endExponent α β p).Exact) {z : ℤ}
    (hp : p.Denotes I z) :
    (endExponent α β p).value I = ((α * z + keptOffset β : ℤ) : ℚ) := by
  have hoffset := denotes_constant I (Scalar.Denotes.exact (keptOffset β))
  have hsum := (hp.scale (Scalar.Denotes.exact α)).add hoffset
  rw [Int.cast_add, Int.cast_mul]
  exact hsum hexact

theorem geometricTerm_zero (r : ℚ) (v : String) (α β : ℤ) : geometricTerm 0 r v α β = zero := rfl

/-- **Geometric sums.**  If the slope fits a 32-bit word and the exponents at
the two ends of the range do not both overflow, a result without a mark has the
value of the finite sum, for all integers that the bounds are read as and
between which the range is at least empty. -/
theorem value_sumOver_geometric {c : ℚ} {start stop : Poly} (hfits : (Scalar.exact r).Fits)
    (hpos : 0 < r) (hne : r ≠ 1) (hα : α ≠ 0) (hlow : -2 ^ 31 ≤ α) (hhigh : α < 2 ^ 31)
    (hβ : Scalar.fits β = true)
    (hends : (endExponent α β start).Exact ∨ (endExponent α β (stop.add one)).Exact)
    (hsum : ((geometricTerm c r v α β).sumOver v start stop).value.hasOverflow = false)
    (hI : I.ReadsIntegralPowers) {s t : ℤ} (hs : start.value I = s) (ht : stop.value I = t)
    (hst : s ≤ t + 1) :
    ((geometricTerm c r v α β).sumOver v start stop).value.value I =
      ∑ x ∈ Icc s t, c * r ^ (α * x + β) := by
  by_cases hc : c = 0
  · subst hc
    simp only [zero_mul, sum_const_zero]
    rw [geometricTerm_zero]
    rfl
  obtain ⟨outer, inverse, houter, houterDenotes, hinverse, hinverseDenotes, hclosed⟩ :=
    Summation.exists_sumOver (v := v) hfits hpos hne hα hlow hhigh hβ hc start stop
  rw [hclosed] at hsum ⊢
  have hr := hpos.ne'
  have hupper := powerForm_exp hfits hr hne (endExponent α β (stop.add one))
  have hlower := powerForm_exp hfits hr hne (endExponent α β start)
  -- neither exponent overflowed, or the mark of the one that did would be in
  -- the sum
  have hboth : (endExponent α β (stop.add one)).Exact ↔ (endExponent α β start).Exact := by
    by_contra hdiffer
    have hmark := hupper.hasOverflow_closedForm hlower hdiffer houter hinverse
    exact Bool.false_ne_true (hsum.symm.trans hmark)
  have hstart : (endExponent α β start).Exact := hends.elim id hboth.mp
  have hstop := hboth.mpr hstart
  have hnext : (stop.add one).Denotes I ((t + 1 : ℤ) : ℚ) := by
    rw [Int.cast_add, Int.cast_one]
    exact Denotes.add (fun _ => ht) (denotes_constant I (.exact 1))
  -- the two powers of the closed form, and what is made of their difference
  have hhighPower := hupper.denotes hI hr hstop (value_endExponent hstop hnext)
  have hlowPower := hlower.denotes hI hr hstart (value_endExponent hstart fun _ => hs)
  have hunital := hupper.over_isUnital.sub hlower.over_isUnital
  have hproduct := (hhighPower.sub hlowPower).constant_mul hunital houterDenotes
  have hvalue := (Denotes.zero I).add (hproduct.scale hinverseDenotes)
  have hpull : ∀ z : ℤ, r ^ (z + β) = r ^ (β - keptOffset β) * r ^ (z + keptOffset β) := by
    intro z
    rw [← zpow_add₀ hr]
    congr 1
    ring
  obtain ⟨hratio, -⟩ := Summation.exists_inverse hfits hpos hne hα
  rw [hvalue (exact_of_hasOverflow hsum), ← mul_sum, sum_Icc_zpow hr hratio β (by omega), hpull,
    hpull]
  ring

/-- The reading of every variable as five, with the integral powers of
fields. -/
def readingOfFive : Reading where
  var _ := 5
  fragment _ := 0
  overflow := 0
  log x := x
  pow x y := x ^ y.num

theorem readsIntegralPowers_readingOfFive : readingOfFive.ReadsIntegralPowers :=
  fun x z => congrArg (x ^ ·) (Rat.num_intCast z)

/-- An exponent that falls, with a fraction as its base: the sum over
`1, ..., 5` has its closed form. -/
theorem value_sumOver_geometric_falling :
    ((Scalar.exact (3 / 2)).Fits ∧ (endExponent (-3) 2 one).Exact ∧
      (endExponent (-3) 2 ((var "n").add one)).Exact ∧
      ((geometricTerm (5 / 7) (3 / 2) "i" (-3) 2).sumOver "i" one (var "n")).value.hasOverflow =
        false) ∧
      ((geometricTerm (5 / 7) (3 / 2) "i" (-3) 2).sumOver "i" one (var "n")).value.value
          readingOfFive =
        ∑ x ∈ Icc (1 : ℤ) 5, 5 / 7 * (3 / 2) ^ (-3 * x + 2) := by
  have hfits : (Scalar.exact (3 / 2)).Fits := ⟨_, rfl, by decide +kernel, by decide +kernel⟩
  have hstart : (endExponent (-3) 2 one).Exact := exact_of_hasOverflow (by decide +kernel)
  have hstop : (endExponent (-3) 2 ((var "n").add one)).Exact :=
    exact_of_hasOverflow (by decide +kernel)
  have hsum : ((geometricTerm (5 / 7) (3 / 2) "i" (-3) 2).sumOver "i" one
      (var "n")).value.hasOverflow = false := by decide +kernel
  have hone : one.value readingOfFive = ((1 : ℤ) : ℚ) := by decide +kernel
  have hn : (var "n").value readingOfFive = ((5 : ℤ) : ℚ) := by decide +kernel
  exact ⟨⟨hfits, hstart, hstop, hsum⟩, value_sumOver_geometric hfits (by decide +kernel)
    (by decide +kernel) (by decide) (by decide) (by decide) (by decide) (Or.inl hstart) hsum
    readsIntegralPowers_readingOfFive hone hn (by decide)⟩

/-- **Sums that are wrong without a mark.**  The slope `2 ^ 32` is narrowed to
zero, which makes the ratio one.  And two end exponents that overflow make the
same atom twice, which cancels. -/
theorem value_sumOver_geometric_narrowed :
    (∃ p, (geometricTerm 1 2 "v" (2 ^ 32) 0).sumOver "v" zero one = ⟨p, []⟩ ∧
      p.hasOpaque = false ∧ p.hasOverflow = false ∧
      ∀ I, p.value I ≠ ∑ x ∈ Icc (0 : ℤ) 1, (1 : ℚ) * 2 ^ (2 ^ 32 * x + 0)) ∧
    ∃ p, (geometricTerm 1 2 "v" 2 0).sumOver "v" (constant (.ofInt (2 ^ 126)))
        (constant (.ofInt (2 ^ 126 + 1))) = ⟨p, []⟩ ∧
      p.hasOpaque = false ∧ p.hasOverflow = false ∧
      ∀ I, p.value I ≠ ∑ x ∈ Icc (2 ^ 126 : ℤ) (2 ^ 126 + 1), (1 : ℚ) * 2 ^ (2 * x + 0) := by
  have houtcome : ∀ {outcome : SumOutcome} {p : Poly}, outcome.value.cmp p = .eq →
      outcome.unresolved = [] → outcome = ⟨p, []⟩ := by
    rintro ⟨value, unresolved⟩ p hvalue rfl
    obtain rfl := eq_of_cmp value p hvalue
    rfl
  refine ⟨⟨constant 2, houtcome (by decide +kernel) (by decide +kernel), rfl, rfl, fun I h => ?_⟩,
    zero, houtcome (by decide +kernel) (by decide +kernel), rfl, rfl, fun I h => ?_⟩
  · have hpair : Icc (0 : ℤ) 1 = {0, 1} := by decide
    have htwo : (constant 2).value I = 2 := (value_term I 2 .one).trans (mul_one 2)
    have hfirst : (2 : ℚ) ^ (2 ^ 32 * 0 + 0 : ℤ) = 1 := by rw [mul_zero, add_zero, zpow_zero]
    have hsecond : (1 : ℚ) < 2 ^ (2 ^ 32 * 1 + 0 : ℤ) := one_lt_zpow₀ one_lt_two (by decide)
    rw [htwo, hpair, sum_pair (by decide), hfirst] at h
    linarith
  · have hpos : ∀ x : ℤ, (0 : ℚ) < 1 * 2 ^ (2 * x + 0) := fun x =>
      mul_pos one_pos (zpow_pos two_pos _)
    exact absurd h (sum_pos (fun x _ => hpos x) ⟨2 ^ 126, by decide⟩).ne

end Poly

end CostAnalysis
