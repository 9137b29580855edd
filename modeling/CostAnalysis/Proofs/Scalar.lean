import CostAnalysis.Numeric.Scalar
import CostAnalysis.Proofs.Word
import Mathlib.Algebra.Order.Ring.Rat
import Mathlib.Tactic.Linarith
import Mathlib.Tactic.FieldSimp

/-!
# Scalars are exact or marked

The arithmetic of scalars never gives a wrong number.  `Scalar.Denotes s q` says
that `s` is the number `q` or the mark of an overflow, and every operation takes
scalars that denote numbers to one that denotes the result (`Denotes.add`,
`Denotes.mul`, ...).  So a computation may be read as one with rational numbers
throughout, and only its last result has to be looked at.

The mark absorbs: a sum or product that is no mark comes from operands that are
none (`isOverflow_add`, `isOverflow_mul`).  And the parts of what is no mark fit
their words again (`Fits.of_add?`, `Fits.of_mul?`, `Fits.of_div?`), so a number
that was computed can be written down and read back.  Scalars that are marks or
fit (`Bounded`) have reciprocals and all integral powers unless they are zero,
so that nothing but a zero ever stands in the way of a quotient.
-/

namespace CostAnalysis.Scalar

open Numeric

/-! ## When a result is no mark -/

/-- A number is no mark. -/
@[simp] theorem isOverflow_exact (q : ℚ) : (exact q).isOverflow = false := rfl

@[simp] theorem isOverflow_overflow : overflow.isOverflow = true := rfl

theorem ofNat_eq (n : ℕ) : ofNat n = exact n := rfl

theorem ofInt_eq (z : ℤ) : ofInt z = exact z := rfl

theorem one_eq : (1 : Scalar) = exact 1 := rfl

theorem zero_eq : (0 : Scalar) = exact 0 := rfl

/-- A number is zero if it is. -/
@[simp] theorem isZero_exact (q : ℚ) : (exact q).isZero = true ↔ q = 0 := by
  simp [isZero, numer, Rat.num_eq_zero]

@[simp] theorem isZero_overflow : overflow.isZero = false := rfl

/-- A number is one if it is. -/
@[simp] theorem isOne_exact (q : ℚ) : (exact q).isOne = true ↔ q = 1 := by
  simp only [isOne, numer, denom, Bool.and_eq_true, beq_iff_eq]
  constructor
  · rintro ⟨hnum, hden⟩
    exact Rat.ext hnum hden
  · rintro rfl
    exact ⟨rfl, rfl⟩

theorem isZero_exact_of_ne {q : ℚ} (hq : q ≠ 0) : (exact q).isZero = false := by
  rwa [Bool.eq_false_iff, Ne, isZero_exact]

theorem isOne_exact_of_ne {q : ℚ} (hq : q ≠ 1) : (exact q).isOne = false := by
  rwa [Bool.eq_false_iff, Ne, isOne_exact]

theorem isZero_ofInt_of_ne {z : ℤ} (hz : z ≠ 0) : (ofInt z).isZero = false :=
  isZero_exact_of_ne (Int.cast_ne_zero.mpr hz)

theorem isOne_ofInt_of_ne {z : ℤ} (hz : z ≠ 1) : (ofInt z).isOne = false :=
  isOne_exact_of_ne (Int.cast_ne_one.mpr hz)

/-! ## One operation

An operation gives the exact result or the mark of an overflow, which stands for
whatever does not fit its word on the way.  Every lemma has these two cases. -/

/-- A fraction that is formed is the quotient of parts that fit. -/
theorem ofFraction?_eq_some {num den : ℤ} {s : Scalar} (h : ofFraction? num den = some s) :
    den ≠ 0 ∧ fits num = true ∧ fits den = true ∧ s = exact (num / den) := by
  rw [ofFraction?, Option.ite_none_left_eq_some] at h
  obtain ⟨hparts, hs⟩ := h
  simp only [Bool.or_eq_true, decide_eq_true_eq, Bool.not_eq_true', not_or,
    Bool.not_eq_false] at hparts
  exact ⟨hparts.1.1, hparts.1.2, hparts.2, by rw [← Option.some.inj hs, Rat.divInt_eq_div]⟩

/-- The parts of a sum over the least common denominator. -/
theorem add_eq_over_lcm (p q : ℚ) :
    p + q = ((p.num * Int.ofNat (Nat.lcm p.den q.den / p.den) +
      q.num * Int.ofNat (Nat.lcm p.den q.den / q.den) : ℤ) : ℚ) /
        ((Int.ofNat (Nat.lcm p.den q.den) : ℤ) : ℚ) := by
  -- the common denominator is `k` times the one and `l` times the other
  obtain ⟨k, hk⟩ := Nat.dvd_lcm_left p.den q.den
  obtain ⟨l, hl⟩ := Nat.dvd_lcm_right p.den q.den
  have hp : Nat.lcm p.den q.den / p.den = k := by
    rw [hk, Nat.mul_div_cancel_left _ p.den_pos]
  have hq : Nat.lcm p.den q.den / q.den = l := by
    rw [hl, Nat.mul_div_cancel_left _ q.den_pos]
  have hlcm : (Nat.lcm p.den q.den : ℚ) ≠ 0 :=
    Nat.cast_ne_zero.mpr (Nat.lcm_ne_zero p.den_nz q.den_nz)
  rw [hp, hq]
  push_cast [Int.ofNat_eq_natCast]
  rw [eq_div_iff hlcm, add_mul]
  nth_rewrite 1 [hk, hl]
  push_cast
  rw [← mul_assoc, ← mul_assoc, Rat.mul_den_eq_num, Rat.mul_den_eq_num]

/-- A sum is formed where its parts over the least common denominator fit. -/
theorem add?_exact (p q : ℚ) :
    add? (exact p) (exact q) =
      let den := Nat.lcm p.den q.den
      let left := p.num * Int.ofNat (den / p.den)
      let right := q.num * Int.ofNat (den / q.den)
      if fits (Int.ofNat den) && fitsSigned 128 left && fitsSigned 128 right && fits (left + right)
      then some (exact (p + q)) else none := by
  have hlcm : Int.ofNat (Nat.lcm p.den q.den) ≠ 0 :=
    Int.natCast_ne_zero.mpr (Nat.lcm_ne_zero p.den_nz q.den_nz)
  simp only [add?, ofFraction?, Rat.divInt_eq_div, ← add_eq_over_lcm, hlcm]
  grind

/-- A sum that is formed is exact. -/
theorem eq_of_add? {p q : ℚ} {s : Scalar} (h : add? (exact p) (exact q) = some s) :
    s = exact (p + q) := by
  simp only [add?_exact, Option.ite_none_right_eq_some, Option.some.injEq] at h
  exact h.2.symm

/-- Numerators reduced against the denominator of the other factor leave the
product in its lowest terms. -/
theorem num_den_mul (p q : ℚ) :
    p.num / Int.gcd p.num q.den * (q.num / Int.gcd q.num p.den) = (p * q).num ∧
      p.den / Int.gcd q.num p.den * (q.den / Int.gcd p.num q.den) = (p * q).den := by
  have hmul : p * q = Rat.mul p q := rfl
  rw [hmul, Rat.mul]
  simp only [Int.divExact_eq_ediv, Nat.divExact_eq_div, Int.gcd, Int.natAbs_natCast, and_self]

/-- A product is formed where its lowest terms fit. -/
theorem mul?_exact (p q : ℚ) :
    mul? (exact p) (exact q) =
      if fits (p * q).num && fits (p * q).den then some (exact (p * q)) else none := by
  obtain ⟨hnum, hden⟩ := num_den_mul p q
  have hden' : Int.ofNat (p.den / Int.gcd q.num p.den) * Int.ofNat (q.den / Int.gcd p.num q.den) =
      (p * q).den := by
    rw [← hden]
    rfl
  simp only [mul?, Int.ofNat_eq_natCast] at hnum hden' ⊢
  rw [hnum, hden', ofFraction?, Rat.num_divInt_den]
  cases hparts : fits (p * q).num && fits (p * q).den with
  | true => simp_all
  | false => simpa using hparts

/-- A product that is formed is exact. -/
theorem eq_of_mul? {p q : ℚ} {s : Scalar} (h : mul? (exact p) (exact q) = some s) :
    s = exact (p * q) := by
  simp only [mul?_exact, Option.ite_none_right_eq_some, Option.some.injEq] at h
  exact h.2.symm

/-- A sum is the mark, or the exact sum of exact scalars. -/
theorem add_cases (x y : Scalar) :
    x + y = overflow ∨ ∃ p q, x = exact p ∧ y = exact q ∧ x + y = exact (p + q) := by
  cases x with
  | overflow => exact Or.inl rfl
  | exact p =>
      cases y with
      | overflow => exact Or.inl rfl
      | exact q =>
          change (add? (exact p) (exact q)).getD overflow = overflow ∨
            ∃ p' q', _ ∧ _ ∧ (add? (exact p) (exact q)).getD overflow = exact (p' + q')
          cases h : add? (exact p) (exact q) with
          | none => exact Or.inl rfl
          | some s => exact Or.inr ⟨p, q, rfl, rfl, eq_of_add? h⟩

/-- A product is the mark, or the exact product of exact scalars. -/
theorem mul_cases (x y : Scalar) :
    x * y = overflow ∨ ∃ p q, x = exact p ∧ y = exact q ∧ x * y = exact (p * q) := by
  cases x with
  | overflow => exact Or.inl rfl
  | exact p =>
      cases y with
      | overflow => exact Or.inl rfl
      | exact q =>
          change (mul? (exact p) (exact q)).getD overflow = overflow ∨
            ∃ p' q', _ ∧ _ ∧ (mul? (exact p) (exact q)).getD overflow = exact (p' * q')
          cases h : mul? (exact p) (exact q) with
          | none => exact Or.inl rfl
          | some s => exact Or.inr ⟨p, q, rfl, rfl, eq_of_mul? h⟩

/-- An opposite is the mark, or the exact opposite of an exact scalar. -/
theorem neg_cases (x : Scalar) : -x = overflow ∨ ∃ p, x = exact p ∧ -x = exact (-p) := by
  cases x with
  | overflow => exact Or.inl rfl
  | exact p =>
      by_cases hfits : fits p.num = true
      · exact Or.inr ⟨p, rfl, if_pos hfits⟩
      · exact Or.inl (if_neg hfits)

/-- The mark absorbs every summand. -/
theorem isOverflow_add {x y : Scalar} (h : (x + y).isOverflow = false) :
    x.isOverflow = false ∧ y.isOverflow = false := by
  rcases add_cases x y with hsum | ⟨p, q, rfl, rfl, -⟩
  · rw [hsum] at h
    cases h
  · exact ⟨rfl, rfl⟩

/-- The mark absorbs every factor. -/
theorem isOverflow_mul {x y : Scalar} (h : (x * y).isOverflow = false) :
    x.isOverflow = false ∧ y.isOverflow = false := by
  rcases mul_cases x y with hprod | ⟨p, q, rfl, rfl, -⟩
  · rw [hprod] at h
    cases h
  · exact ⟨rfl, rfl⟩

/-- The opposite of the mark is the mark. -/
theorem isOverflow_neg {x : Scalar} (h : (-x).isOverflow = false) : x.isOverflow = false := by
  rcases neg_cases x with hneg | ⟨p, rfl, -⟩
  · rw [hneg] at h
    cases h
  · rfl

/-- The quotient of two integers whose parts fit. -/
theorem ofFraction?_eq {num den : ℤ} (hden : den ≠ 0) (hnum : fits num = true)
    (hfits : fits den = true) : ofFraction? num den = some (exact (num / den)) := by
  simp [ofFraction?, hden, hnum, hfits, Rat.divInt_eq_div]

/-- The parts exchanged are the reciprocal. -/
theorem den_div_num (q : ℚ) : ((Int.ofNat q.den : ℤ) : ℚ) / (q.num : ℚ) = q⁻¹ := by
  conv_rhs => rw [← Rat.num_div_den q, inv_div]
  rfl

/-- The reciprocal of a number other than zero whose parts fit. -/
theorem recip?_exact {q : ℚ} (hq : q ≠ 0) (hnum : fits q.num = true)
    (hden : fits q.den = true) : (exact q).recip? = some (exact q⁻¹) := by
  rw [← den_div_num]
  exact ofFraction?_eq (by simpa using hq) hden hnum

/-! ## Numbers whose parts fit

A sum with zero or a product with one is computed like any other, so that it
gives the other operand back only if the parts of that fit.  Most of these
lemmas say that something fits. -/

theorem fits_iff {z : ℤ} : fits z = true ↔ z.natAbs < 2 ^ 127 :=
  decide_eq_true_iff

theorem fits_neg {z : ℤ} (h : fits z = true) : fits (-z) = true := by
  simpa [fits_iff] using h

theorem fits_natAbs {z : ℤ} (h : fits z = true) : fits z.natAbs = true := by
  rw [fits_iff, Int.natAbs_natCast]
  exact fits_iff.mp h

theorem fits_of_dvd {a b : ℤ} (h : a ∣ b) (hb : b ≠ 0) (hfits : fits b = true) : fits a = true :=
  fits_iff.mpr (lt_of_le_of_lt (Int.natAbs_le_of_dvd_ne_zero h hb) (fits_iff.mp hfits))

/-- A word holds every integer whose magnitude fits. -/
theorem fitsSigned_of_fits {z : ℤ} (h : fits z = true) : fitsSigned 128 z = true := by
  rw [fits_iff] at h
  exact fitsSigned_iff.mpr (by omega)

/-- An exact number both of whose parts fit their words.  Integers of magnitude
`2 ^ 127`, whose opposite a word may not hold, count as an overflow
throughout. -/
def Fits (s : Scalar) : Prop :=
  ∃ q : ℚ, s = exact q ∧ fits q.num = true ∧ fits q.den = true

/-- What fits is no mark. -/
theorem Fits.isOverflow {s : Scalar} (h : s.Fits) : s.isOverflow = false := by
  obtain ⟨q, rfl, -, -⟩ := h
  rfl

/-- The opposite of a number that fits fits. -/
theorem Fits.neg {s : Scalar} (h : s.Fits) : (-s).Fits := by
  obtain ⟨q, rfl, hnum, hden⟩ := h
  refine ⟨-q, if_pos hnum, ?_, ?_⟩
  · simpa using fits_neg hnum
  · simpa using hden

theorem Fits.neg_neg {s : Scalar} (h : s.Fits) : - -s = s := by
  obtain ⟨q, rfl, hnum, hden⟩ := h
  have hneg : -exact q = exact (-q) := if_pos hnum
  have hback : -exact (-q) = exact (- -q) := if_pos (by simpa using fits_neg hnum)
  rw [hneg, hback, Rat.neg_neg]

/-- The lowest terms of a fraction fit where its parts do. -/
theorem fits_div {a b : ℤ} (hb : b ≠ 0) (ha : fits a = true) (hfits : fits b = true) :
    (exact (a / b : ℚ)).Fits := by
  refine ⟨_, rfl, ?_, ?_⟩
  · by_cases ha0 : a = 0
    · simp [ha0, fits_iff]
    · have hdvd : (a / b : ℚ).num ∣ a := Rat.divInt_eq_div a b ▸ Rat.num_dvd a hb
      exact fits_of_dvd hdvd ha0 ha
  · have hdvd : ((a / b : ℚ).den : ℤ) ∣ b := Rat.divInt_eq_div a b ▸ Rat.den_dvd a b
    exact fits_of_dvd hdvd hb hfits

/-- **A sum that is given fits**, as each of its parts was checked. -/
theorem Fits.of_add? {x y s : Scalar} (h : add? x y = some s) : s.Fits := by
  cases x with
  | overflow => cases h
  | exact p =>
      cases y with
      | overflow => cases h
      | exact q =>
          simp only [add?, Option.ite_none_right_eq_some] at h
          obtain ⟨hden, hsum, hlcm, rfl⟩ := ofFraction?_eq_some h.2
          exact fits_div hden hsum hlcm

theorem Fits.of_mul? {x y s : Scalar} (h : mul? x y = some s) : s.Fits := by
  cases x with
  | overflow => cases h
  | exact p =>
      cases y with
      | overflow => cases h
      | exact q =>
          rw [eq_of_mul? h]
          simp only [mul?_exact, Option.ite_none_right_eq_some, Bool.and_eq_true] at h
          exact ⟨_, rfl, h.1.1, h.1.2⟩

/-- A quotient that is not the mark fits. -/
theorem Fits.of_div? {x y s : Scalar} (h : div? x y = some s) (hs : s ≠ overflow) : s.Fits := by
  obtain ⟨r, -, rfl⟩ := Option.map_eq_some_iff.mp h
  cases hmul : mul? x r with
  | none => exact absurd (congrArg (Option.getD · overflow) hmul) hs
  | some t =>
      have heq : x * r = t := congrArg (Option.getD · overflow) hmul
      rw [heq]
      exact Fits.of_mul? hmul

theorem Fits.ofInt {z : ℤ} (h : fits z = true) : (ofInt z).Fits :=
  ⟨Rat.ofInt z, rfl, h, (by decide : fits 1 = true)⟩

theorem neg_ofInt {z : ℤ} (h : fits z = true) : -ofInt z = ofInt (-z) :=
  if_pos h

theorem zero_fits : (0 : Scalar).Fits := ⟨0, rfl, by decide, by decide⟩

theorem one_fits : (1 : Scalar).Fits := ⟨1, rfl, by decide, by decide⟩

theorem half_fits : half.Fits := ⟨mkRat 1 2, rfl, by decide +kernel, by decide +kernel⟩

/-- Zero is neutral among the numbers whose parts fit. -/
theorem zero_add? {s : Scalar} (h : s.Fits) : add? 0 s = some s := by
  obtain ⟨q, rfl, hnum, hden⟩ := h
  have hdiv : q.den / q.den = 1 := Nat.div_self q.den_pos
  have hzero : fitsSigned 128 0 = true := by decide
  rw [zero_eq, add?_exact]
  simp [hdiv, hnum, hden, hzero, fitsSigned_of_fits hnum]

/-- One is neutral among the numbers whose parts fit. -/
theorem one_mul? {s : Scalar} (h : s.Fits) : mul? 1 s = some s := by
  obtain ⟨q, rfl, hnum, hden⟩ := h
  rw [one_eq, mul?_exact]
  simp [hnum, hden]

/-- The only number that is zero is zero. -/
theorem Fits.eq_zero {s : Scalar} (h : s.Fits) (hzero : s.isZero = true) : s = 0 := by
  obtain ⟨q, rfl, -, -⟩ := h
  rw [(isZero_exact q).mp hzero]
  rfl

theorem Fits.zero_add {s : Scalar} (h : s.Fits) : 0 + s = s :=
  congrArg (Option.getD · overflow) (zero_add? h)

theorem Fits.one_mul {s : Scalar} (h : s.Fits) : 1 * s = s :=
  congrArg (Option.getD · overflow) (one_mul? h)

/-- A product that fits is exact. -/
theorem exact_mul_exact {p q : ℚ} (h : (exact (p * q)).Fits) :
    exact p * exact q = exact (p * q) := by
  obtain ⟨r, hr, hnum, hden⟩ := h
  rw [exact.injEq] at hr
  show (mul? (exact p) (exact q)).getD overflow = _
  rw [mul?_exact]
  simp [hr, hnum, hden]

/-- The reciprocal of a positive integer. -/
theorem recip?_ofNat {n : ℕ} (hn : n ≠ 0) (hfits : fits n = true) :
    (ofNat n).recip? = some (exact (n : ℚ)⁻¹) ∧ (exact (n : ℚ)⁻¹).Fits ∧
      (exact (n : ℚ)⁻¹).isZero = false := by
  have hn' : (n : ℚ) ≠ 0 := Nat.cast_ne_zero.mpr hn
  refine ⟨recip?_exact hn' hfits (by decide : fits 1 = true), ?_,
    isZero_exact_of_ne (inv_ne_zero hn')⟩
  have hquotient := fits_div (a := 1) (Int.natCast_ne_zero.mpr hn) (by decide) hfits
  simpa using hquotient

/-- A reciprocal has the parts of its number. -/
theorem Fits.inv {q : ℚ} (hq : q ≠ 0) (h : (exact q).Fits) : (exact q⁻¹).Fits := by
  obtain ⟨r, hr, hnum, hden⟩ := h
  cases hr
  have hfits := fits_div (a := Int.ofNat q.den) (Rat.num_ne_zero.mpr hq) hden hnum
  rwa [den_div_num] at hfits

/-- A multiple that fits is multiplied by the reciprocal again. -/
theorem Fits.mul_ofNat_mul_inv {s : Scalar} {n : ℕ} (hs : s.Fits) (hn : n ≠ 0)
    (h : (s * Scalar.ofNat n).Fits) : s * Scalar.ofNat n * exact (n : ℚ)⁻¹ = s := by
  have hn' : (n : ℚ) ≠ 0 := Nat.cast_ne_zero.mpr hn
  rcases mul_cases s (Scalar.ofNat n) with hover | ⟨p, q, rfl, hq, hvalue⟩
  · rw [hover] at h
    cases h.isOverflow
  · have hback : p * q * (n : ℚ)⁻¹ = p := by
      rw [← exact.inj hq]
      exact mul_inv_cancel_right₀ hn' p
    rw [hvalue, exact_mul_exact (by rw [hback]; exact hs), hback]

theorem Fits.mul_one {s : Scalar} (h : s.Fits) : s * 1 = s := by
  obtain ⟨q, rfl, hnum, hden⟩ := h
  rw [one_eq, exact_mul_exact ⟨q, by rw [Rat.mul_one], hnum, hden⟩, Rat.mul_one]

theorem Fits.neg_one_mul {s : Scalar} (h : s.Fits) : Scalar.ofInt (-1) * s = -s := by
  have hneg := h.neg
  obtain ⟨q, rfl, hnum, hden⟩ := h
  have hvalue : ((-1 : ℤ) : ℚ) * q = -q := by simp
  have hopposite : -exact q = exact (-q) := if_pos hnum
  rw [hopposite] at hneg ⊢
  rw [ofInt_eq, exact_mul_exact (hvalue ▸ hneg), hvalue]

/-- The mark is never folded. -/
theorem add?_overflow (x : Scalar) : add? x overflow = none := by
  cases x <;> rfl

theorem mul?_overflow (x : Scalar) : mul? x overflow = none := by
  cases x <;> rfl

/-- A product with zero always fits. -/
theorem mul?_zero (q : ℚ) : mul? (exact q) (exact 0) = some (exact 0) := by
  rw [mul?_exact, mul_zero]
  rfl

/-- A product that fits is zero only if a factor is. -/
theorem isZero_of_mul? {x y s : Scalar} (h : mul? x y = some s) (hs : s.isZero = true) :
    x.isZero = true ∨ y.isZero = true := by
  cases x with
  | overflow => cases h
  | exact p =>
      cases y with
      | overflow => cases h
      | exact q =>
          rw [eq_of_mul? h, isZero_exact, mul_eq_zero] at hs
          simpa using hs

/-- The lesser of two scalars is one of them. -/
theorem least_eq (x y : Scalar) : least x y = x ∨ least x y = y := by
  rw [least]
  split
  · exact Or.inr rfl
  · exact Or.inl rfl

theorem greatest_eq (x y : Scalar) : greatest x y = x ∨ greatest x y = y := by
  rw [greatest]
  split
  · exact Or.inl rfl
  · exact Or.inr rfl

/-! ## Numbers that can be computed with -/

/-- The mark of an overflow, or a number whose parts fit: what every operation
gives. -/
def Bounded (s : Scalar) : Prop :=
  s = overflow ∨ s.Fits

theorem Fits.bounded {s : Scalar} (h : s.Fits) : s.Bounded := Or.inr h

/-- With the mark in the place of a result that is not given, a result that fits
can be computed with. -/
theorem bounded_getD {s? : Option Scalar} (h : ∀ s, s? = some s → s.Fits) :
    (s?.getD overflow).Bounded := by
  cases s? with
  | none => exact Or.inl rfl
  | some s => exact Or.inr (h s rfl)

theorem bounded_add (x y : Scalar) : (x + y).Bounded :=
  bounded_getD fun _ => Fits.of_add?

theorem bounded_mul (x y : Scalar) : (x * y).Bounded :=
  bounded_getD fun _ => Fits.of_mul?

/-- Adding zero changes nothing, be it a number or the mark. -/
theorem Bounded.zero_add {s : Scalar} (h : s.Bounded) : 0 + s = s := by
  rcases h with rfl | h
  · rfl
  · exact h.zero_add

theorem Bounded.one_mul {s : Scalar} (h : s.Bounded) : 1 * s = s := by
  rcases h with rfl | h
  · rfl
  · exact h.one_mul

/-- Opposites can be computed with. -/
theorem Bounded.neg {s : Scalar} (h : s.Bounded) : (-s).Bounded := by
  rcases h with rfl | h
  · exact Or.inl rfl
  · exact h.neg.bounded

/-- The opposite of a number other than zero is not zero. -/
theorem isZero_neg_of_ne {s : Scalar} (h : s.isZero = false) : (-s).isZero = false := by
  rcases neg_cases s with hneg | ⟨p, rfl, hneg⟩
  · rw [hneg]
    rfl
  · rw [Bool.eq_false_iff, Ne, isZero_exact] at h
    rw [hneg, Bool.eq_false_iff, Ne, isZero_exact, neg_eq_zero]
    exact h

/-- What a polynomial may have as a coefficient. -/
structure IsCoefficient (s : Scalar) : Prop where
  bounded : s.Bounded
  ne_zero : s.isZero = false

namespace IsCoefficient

variable {x y : Scalar}

theorem one : (1 : Scalar).IsCoefficient := ⟨one_fits.bounded, rfl⟩

theorem neg (h : x.IsCoefficient) : (-x).IsCoefficient :=
  ⟨h.bounded.neg, isZero_neg_of_ne h.ne_zero⟩

/-- A product of two that are not zero is not zero: it is the mark, or the exact
product. -/
theorem mul (hx : x.isZero = false) (hy : y.isZero = false) : (x * y).IsCoefficient := by
  refine ⟨bounded_mul x y, ?_⟩
  rcases mul_cases x y with hmul | ⟨p, q, rfl, rfl, hmul⟩
  · rw [hmul]
    rfl
  · rw [Bool.eq_false_iff, Ne, isZero_exact] at hx hy
    rw [hmul, Bool.eq_false_iff, Ne, isZero_exact]
    exact mul_ne_zero hx hy

/-- A number other than zero has a reciprocal, also where it is a mark. -/
theorem recip? (h : x.IsCoefficient) : ∃ r, x.recip? = some r ∧ r.IsCoefficient := by
  rcases h.bounded with rfl | ⟨q, rfl, hnum, hden⟩
  · exact ⟨overflow, rfl, h⟩
  · have hq := h.ne_zero
    rw [Bool.eq_false_iff, Ne, isZero_exact] at hq
    have hfits : (exact q⁻¹).Fits := .inv hq ⟨q, rfl, hnum, hden⟩
    refine ⟨exact q⁻¹, recip?_exact hq hnum hden, hfits.bounded, ?_⟩
    rw [Bool.eq_false_iff, Ne, isZero_exact]
    exact inv_ne_zero hq

/-- So repeated multiplication stays a coefficient. -/
theorem powFrom (hx : x.IsCoefficient) (hy : y.IsCoefficient) (k : ℕ) :
    (powFrom x y k).IsCoefficient := by
  induction k generalizing y with
  | zero => exact hy
  | succ k ih =>
      rw [Scalar.powFrom]
      split
      · exact ⟨Or.inl rfl, rfl⟩
      · exact ih (.mul hy.ne_zero hx.ne_zero)

/-- A number other than zero has all integral powers. -/
theorem pow? (h : x.IsCoefficient) (k : ℤ) : ∃ r, x.pow? k = some r ∧ r.IsCoefficient := by
  rw [Scalar.pow?]
  split
  · obtain ⟨r, hr, hr'⟩ := h.recip?
    exact ⟨_, congrArg (Option.map _) hr, hr'.powFrom one _⟩
  · exact ⟨_, rfl, h.powFrom one _⟩

end IsCoefficient

/-! ## Integers of a word -/

/-- An integer that its word holds. -/
def Integral (s : Scalar) : Prop :=
  ∃ z : ℤ, s = ofInt z ∧ fits z = true

theorem zero_integral : (0 : Scalar).Integral := ⟨0, rfl, by decide⟩

/-- A sum of integers that fits is an integer of its word. -/
theorem Integral.add? {x y s : Scalar} (hx : x.Integral) (hy : y.Integral)
    (h : Scalar.add? x y = some s) : s.Integral := by
  obtain ⟨z, rfl, -⟩ := hx
  obtain ⟨w, rfl, -⟩ := hy
  have hsum : s = ofInt (z + w) := by
    rw [eq_of_add? h, ofInt_eq]
    exact congrArg exact (Int.cast_add z w).symm
  obtain ⟨q, hq, hnum, -⟩ := Fits.of_add? h
  rw [hsum] at hq
  cases hq
  exact ⟨z + w, hsum, hnum⟩

theorem ofInt_inj {z w : ℤ} : ofInt z = ofInt w ↔ z = w := by
  rw [ofInt_eq, ofInt_eq, exact.injEq, Int.cast_inj]

/-- An integer is found again. -/
@[simp] theorem toInt?_ofInt (z : ℤ) : (ofInt z).toInt? = some z := rfl

theorem eq_ofInt_of_toInt? {s : Scalar} {z : ℤ} (h : s.toInt? = some z) : s = ofInt z := by
  cases s with
  | overflow => cases h
  | exact q =>
      simp only [toInt?, isInteger, denom, numer, beq_iff_eq, Option.ite_none_right_eq_some,
        Option.some.injEq] at h
      rw [ofInt_eq, ← h.2, Rat.coe_int_num_of_den_eq_one h.1]

/-- A sum of integers of a word that fits is exact. -/
theorem ofInt_add {z w : ℤ} (hz : fits z = true) (hw : fits w = true) (hsum : fits (z + w) = true) :
    ofInt z + ofInt w = ofInt (z + w) := by
  have hone : fits 1 = true := by decide
  have hadd : add? (ofInt z) (ofInt w) = some (ofInt (z + w)) := by
    simp [ofInt_eq, add?_exact, fitsSigned_of_fits hz, fitsSigned_of_fits hw, hsum, hone]
  exact congrArg (Option.getD · overflow) hadd

/-- An integer and its opposite cancel. -/
theorem ofInt_add_neg {z : ℤ} (h : fits z = true) : ofInt z + ofInt (-z) = 0 := by
  rw [ofInt_add h (fits_neg h) (by simp [fits_iff]), add_neg_cancel]
  rfl

/-- Integers of a word are compared as integers. -/
theorem cmp_ofInt {z w : ℤ} (hz : fits z = true) (hw : fits w = true) :
    cmp (ofInt z) (ofInt w) = compare z w := by
  have hleft : (Rat.ofInt z).num * Int.ofNat (Rat.ofInt w).den = z := mul_one z
  have hright : (Rat.ofInt w).num * Int.ofNat (Rat.ofInt z).den = w := mul_one w
  have hfits : (fitsSigned 128 z && fitsSigned 128 w) = true := by
    rw [fitsSigned_of_fits hz, fitsSigned_of_fits hw]
    rfl
  show cmpExact (Rat.ofInt z) (Rat.ofInt w) = compare z w
  simp only [cmpExact, hleft, hright, if_pos hfits]

/-! ## Scalars that denote numbers

A scalar denotes a number if it is that number or the mark.  Every operation
keeps this without any condition, so it is the form in which a long computation
is described. -/

/-- The scalar is the given number or the mark of an overflow. -/
def Denotes (s : Scalar) (q : ℚ) : Prop :=
  s = exact q ∨ s = overflow

namespace Denotes

variable {x y : Scalar} {p q : ℚ}

theorem exact (q : ℚ) : (Scalar.exact q).Denotes q := Or.inl rfl

/-- What is no mark is the number. -/
theorem eq_exact (h : x.Denotes q) (hx : x.isOverflow = false) : x = .exact q := by
  rcases h with rfl | rfl
  · rfl
  · exact absurd hx (by decide)

/-- What is zero denotes zero, as the mark is not. -/
theorem eq_zero (h : x.Denotes q) (hx : x.isZero = true) : q = 0 := by
  rcases h with rfl | rfl
  · exact (isZero_exact q).mp hx
  · exact absurd hx (by decide)

/-- **Sums denote sums**. -/
theorem add (hx : x.Denotes p) (hy : y.Denotes q) : (x + y).Denotes (p + q) := by
  rcases add_cases x y with h | ⟨p', q', rfl, rfl, h⟩
  · exact Or.inr h
  · cases hx.eq_exact rfl
    cases hy.eq_exact rfl
    exact Or.inl h

theorem mul (hx : x.Denotes p) (hy : y.Denotes q) : (x * y).Denotes (p * q) := by
  rcases mul_cases x y with h | ⟨p', q', rfl, rfl, h⟩
  · exact Or.inr h
  · cases hx.eq_exact rfl
    cases hy.eq_exact rfl
    exact Or.inl h

theorem neg (hx : x.Denotes p) : (-x).Denotes (-p) := by
  rcases neg_cases x with h | ⟨p', rfl, h⟩
  · exact Or.inr h
  · cases hx.eq_exact rfl
    exact Or.inl h

theorem recip? (hx : x.Denotes p) (h : x.recip? = some y) : y.Denotes p⁻¹ := by
  rcases hx with rfl | rfl
  · rw [Scalar.recip?, ofFraction?, Option.ite_none_left_eq_some] at h
    rw [← den_div_num, ← Rat.divInt_eq_div]
    exact Or.inl (Option.some.inj h.2).symm
  · exact Or.inr (Option.some.inj h).symm

theorem div? {s : Scalar} (hx : x.Denotes p) (hy : y.Denotes q) (h : x.div? y = some s) :
    s.Denotes (p / q) := by
  obtain ⟨r, hr, rfl⟩ := Option.map_eq_some_iff.mp h
  rw [div_eq_mul_inv]
  exact hx.mul (hy.recip? hr)

theorem powFrom (hx : x.Denotes p) (hy : y.Denotes q) (k : ℕ) :
    (powFrom x y k).Denotes (q * p ^ k) := by
  induction k generalizing y q with
  | zero =>
      rw [pow_zero, mul_one]
      exact hy
  | succ k ih =>
      rw [Scalar.powFrom]
      split
      · exact Or.inr rfl
      · rw [pow_succ', ← mul_assoc]
        exact ih (hy.mul hx)

/-- An integral power denotes the power. -/
theorem pow? {k : ℤ} (hx : x.Denotes p) (h : x.pow? k = some y) : y.Denotes (p ^ k) := by
  rw [Scalar.pow?] at h
  split at h
  · next hk =>
      obtain ⟨r, hr, rfl⟩ := Option.map_eq_some_iff.mp h
      have hpow := (hx.recip? hr).powFrom (.exact 1) k.natAbs
      rwa [one_mul, inv_pow, ← zpow_natCast, ← zpow_neg, Int.ofNat_natAbs_of_nonpos hk.le,
        neg_neg] at hpow
  · next hk =>
      obtain rfl := Option.some.inj h
      have hpow := hx.powFrom (.exact 1) k.natAbs
      rwa [one_mul, ← zpow_natCast, Int.natAbs_of_nonneg (not_lt.mp hk)] at hpow

end Denotes

/-- A number other than zero whose parts fit has all integral powers, as numbers
or marks. -/
theorem Fits.exists_pow? {q : ℚ} (h : (exact q).Fits) (hq : q ≠ 0) (k : ℤ) :
    ∃ s, (exact q).pow? k = some s ∧ s.IsCoefficient ∧ s.Denotes (q ^ k) := by
  obtain ⟨s, hs, hcoefficient⟩ := IsCoefficient.pow? ⟨h.bounded, isZero_exact_of_ne hq⟩ k
  exact ⟨s, hs, hcoefficient, (Denotes.exact q).pow? hs⟩

end CostAnalysis.Scalar
