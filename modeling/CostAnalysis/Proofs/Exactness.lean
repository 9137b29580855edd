import CostAnalysis.Proofs.Scalar

/-!
# When a result fits

Between numbers whose parts fit, each operation gives the exact result or the
mark of an overflow, and the mark absorbs whatever it meets
(`arithmetic_exact_or_overflow`).

**Products.**  The numerators are reduced against the denominators of the other
factor before they are multiplied, and what is multiplied then are the lowest
terms of the product (`num_den_mul`).  So the mark stands for a product exactly
if its lowest terms do not fit.

**Sums.**  A sum is formed over the least common denominator, and its parts
there may not fit although its lowest terms would.  All that can be said of a
sum is that it is exact or the mark.

**Quotients.**  The reciprocal exchanges the parts, so it exists for every
number but zero, and a quotient is the product with it.
-/

namespace CostAnalysis.Scalar

/-! ## Lowest terms that fit

For products, reciprocals and quotients the condition is exact, since what is
computed on the way are the lowest terms of the result. -/

/-- A number fits if both of its parts do. -/
theorem exact_fits_iff {q : ℚ} : (exact q).Fits ↔ fits q.num = true ∧ fits q.den = true := by
  constructor
  · rintro ⟨r, hr, hparts⟩
    rwa [exact.inj hr]
  · exact fun hparts => ⟨q, rfl, hparts⟩

/-- A number has a reciprocal if it is not zero and fits. -/
theorem recip?_eq_some_iff {q : ℚ} {r : Scalar} :
    (exact q).recip? = some r ↔ q ≠ 0 ∧ (exact q).Fits ∧ r = exact q⁻¹ := by
  rw [exact_fits_iff]
  constructor
  · intro h
    have hparts := h
    rw [recip?, ofFraction?, Option.ite_none_left_eq_some] at hparts
    obtain ⟨hparts, -⟩ := hparts
    simp only [Bool.or_eq_true, decide_eq_true_eq, Bool.not_eq_true', not_or,
      Bool.not_eq_false, Rat.num_eq_zero] at hparts
    obtain ⟨⟨hq, hden⟩, hnum⟩ := hparts
    rw [recip?_exact hq hnum hden] at h
    exact ⟨hq, ⟨hnum, hden⟩, (Option.some.inj h).symm⟩
  · rintro ⟨hq, ⟨hnum, hden⟩, rfl⟩
    exact recip?_exact hq hnum hden

/-- A product of numbers is the mark if it does not fit. -/
theorem mul_eq_overflow_iff {p q : ℚ} :
    exact p * exact q = overflow ↔ ¬ (exact (p * q)).Fits := by
  constructor
  · intro h hfits
    rw [exact_mul_exact hfits] at h
    cases h
  · intro h
    rcases mul_cases (exact p) (exact q) with hover | ⟨p', q', hp, hq, hprod⟩
    · exact hover
    · cases hp
      cases hq
      refine absurd ?_ h
      rw [← hprod]
      refine (bounded_mul _ _).resolve_left fun hover => ?_
      rw [hover] at hprod
      cases hprod

/-- A quotient of numbers is the mark if the divisor has a reciprocal and the
quotient does not fit. -/
theorem div?_eq_overflow_iff {p q : ℚ} :
    (exact p).div? (exact q) = some overflow ↔
      q ≠ 0 ∧ (exact q).Fits ∧ ¬ (exact (p / q)).Fits := by
  rw [div?, Option.map_eq_some_iff, div_eq_mul_inv]
  constructor
  · rintro ⟨r, hr, hprod⟩
    obtain ⟨hq, hfits, rfl⟩ := recip?_eq_some_iff.mp hr
    exact ⟨hq, hfits, mul_eq_overflow_iff.mp hprod⟩
  · rintro ⟨hq, hfits, hprod⟩
    exact ⟨_, recip?_eq_some_iff.mpr ⟨hq, hfits, rfl⟩, mul_eq_overflow_iff.mpr hprod⟩

/-- Only numbers have a quotient that is a number. -/
theorem exists_of_div? {x y : Scalar} {r : ℚ} (h : x.div? y = some (exact r)) :
    ∃ p q, x = exact p ∧ y = exact q ∧ q ≠ 0 ∧ (exact q).Fits ∧ r = q⁻¹ * p := by
  obtain ⟨s, hs, hprod⟩ := Option.map_eq_some_iff.mp h
  rcases mul_cases x s with hover | ⟨p, q', rfl, rfl, hvalue⟩
  · rw [hover] at hprod
    cases hprod
  · cases y with
    | overflow => cases hs
    | exact q =>
        obtain ⟨hq, hfits, hinverse⟩ := recip?_eq_some_iff.mp hs
        cases hinverse
        rw [hprod] at hvalue
        cases hvalue
        exact ⟨p, q, rfl, rfl, hq, hfits, mul_comm _ _⟩

/-- A product of numbers is exact if it fits. -/
theorem mul_eq_exact_iff {p q : ℚ} :
    exact p * exact q = exact (p * q) ↔ (exact (p * q)).Fits := by
  refine ⟨fun h => ?_, exact_mul_exact⟩
  have hnone : exact p * exact q ≠ overflow := by simp [h]
  exact not_not.mp (mt mul_eq_overflow_iff.mpr hnone)

/-- A word of magnitude at most `2 ^ 127 - 1` holds both parts. -/
theorem exact_fits_iff_le {q : ℚ} :
    (exact q).Fits ↔ q.num.natAbs ≤ 2 ^ 127 - 1 ∧ q.den ≤ 2 ^ 127 - 1 := by
  rw [exact_fits_iff, fits_iff, fits_iff, Int.natAbs_natCast]
  omega

/-! ## Every operation -/

/-- The scalar is the given number, the parts of which fit, or the mark. -/
def ExactOrOverflow (s : Scalar) (q : ℚ) : Prop :=
  s = exact q ∧ (exact q).Fits ∨ s = overflow

/-- What can be computed with and denotes a number is the number or the mark. -/
theorem Bounded.exactOrOverflow {s : Scalar} {q : ℚ} (h : s.Bounded) (hs : s.Denotes q) :
    s.ExactOrOverflow q := by
  rcases hs with rfl | rfl
  · exact Or.inl ⟨rfl, h.resolve_left nofun⟩
  · exact Or.inr rfl

/-- A difference is exact or the mark, as it is a sum with an opposite. -/
theorem sub_exactOrOverflow (p q : ℚ) : (exact p - exact q).ExactOrOverflow (p - q) := by
  rw [sub_eq_add_neg]
  exact (bounded_add _ _).exactOrOverflow ((Denotes.exact p).add (Denotes.exact q).neg)

/-- Only a divisor of zero has no quotient. -/
theorem div?_eq_none_iff {x y : Scalar} (hy : y.Bounded) : x.div? y = none ↔ y.isZero = true := by
  rw [div?, Option.map_eq_none_iff]
  constructor
  · intro hnone
    by_contra hzero
    obtain ⟨r, hr, -⟩ := IsCoefficient.recip? ⟨hy, Bool.not_eq_true _ ▸ hzero⟩
    rw [hnone] at hr
    cases hr
  · intro hzero
    cases y with
    | overflow => cases hzero
    | exact q =>
        rw [(isZero_exact q).mp hzero]
        rfl

/-- **The mark absorbs** in a product. -/
theorem overflow_mul (x : Scalar) : overflow * x = overflow := rfl

theorem mul_overflow (x : Scalar) : x * overflow = overflow := by
  cases x <;> rfl

theorem overflow_add (x : Scalar) : overflow + x = overflow := rfl

theorem add_overflow (x : Scalar) : x + overflow = overflow := by
  cases x <;> rfl

/-- The mark divided by anything but zero is the mark. -/
theorem overflow_div? {y : Scalar} (hy : y.IsCoefficient) : overflow.div? y = some overflow := by
  obtain ⟨r, hr, -⟩ := hy.recip?
  rw [div?, hr]
  rfl

theorem div?_overflow (x : Scalar) : x.div? overflow = some overflow :=
  congrArg some (mul_overflow x)

/-- **Exact or marked.**  Between numbers whose parts fit, a product is exact if
its lowest terms fit and the mark otherwise; a sum, a difference and a quotient
are exact or the mark, and only zero has no quotient.  With the mark as an
operand the result is the mark. -/
theorem arithmetic_exact_or_overflow {p q : ℚ} (hp : (exact p).Fits) (hq : (exact q).Fits) :
    (exact p * exact q = exact (p * q) ↔
        (p * q).num.natAbs ≤ 2 ^ 127 - 1 ∧ (p * q).den ≤ 2 ^ 127 - 1) ∧
      (exact p * exact q = overflow ↔
        ¬ ((p * q).num.natAbs ≤ 2 ^ 127 - 1 ∧ (p * q).den ≤ 2 ^ 127 - 1)) ∧
      (exact p + exact q).ExactOrOverflow (p + q) ∧
      (exact p - exact q).ExactOrOverflow (p - q) ∧
      ((exact p).div? (exact q) = none ↔ q = 0) ∧
      (∀ s, (exact p).div? (exact q) = some s → s.ExactOrOverflow (p / q)) ∧
      -overflow = overflow ∧
      ∀ x ∈ [exact p, overflow],
        overflow + x = overflow ∧ x + overflow = overflow ∧
          overflow - x = overflow ∧ x - overflow = overflow ∧
          overflow * x = overflow ∧ x * overflow = overflow ∧
          x.div? overflow = some overflow ∧
          (x.isZero = false → overflow.div? x = some overflow) := by
  refine ⟨?_, ?_, ?_, sub_exactOrOverflow p q, ?_, ?_, rfl, ?_⟩
  · rw [mul_eq_exact_iff, exact_fits_iff_le]
  · rw [mul_eq_overflow_iff, exact_fits_iff_le]
  · exact (bounded_add _ _).exactOrOverflow ((Denotes.exact p).add (Denotes.exact q))
  · rw [div?_eq_none_iff hq.bounded, isZero_exact]
  · intro s hs
    refine Bounded.exactOrOverflow ?_ ((Denotes.exact p).div? (Denotes.exact q) hs)
    obtain ⟨r, -, rfl⟩ := Option.map_eq_some_iff.mp hs
    exact bounded_mul _ _
  · intro x hx
    have hbounded : x.Bounded := by
      rcases List.mem_pair.mp hx with rfl | rfl
      · exact hp.bounded
      · exact Or.inl rfl
    exact ⟨overflow_add x, add_overflow x, overflow_add (-x), add_overflow x, overflow_mul x,
      mul_overflow x, div?_overflow x, fun hzero => overflow_div? ⟨hbounded, hzero⟩⟩

/-- The greatest number and one half: their product fits, and the square of the
number does not.  Their sum is over twice the denominator, where it does not
fit. -/
theorem arithmetic_exact_or_overflow_greatest :
    (exact (2 ^ 127 - 1)).Fits ∧ (exact (1 / 2)).Fits ∧
      exact (2 ^ 127 - 1) * exact (1 / 2) = exact ((2 ^ 127 - 1) * (1 / 2)) ∧
      exact (2 ^ 127 - 1) * exact (2 ^ 127 - 1) = overflow ∧
      exact (2 ^ 127 - 1) + exact (1 / 2) = overflow ∧
      (exact (2 ^ 127 - 1)).div? (exact (1 / 2)) = some overflow := by
  have hgreatest : (exact (2 ^ 127 - 1)).Fits := exact_fits_iff_le.mpr (by decide +kernel)
  have hhalf : (exact (1 / 2)).Fits := exact_fits_iff_le.mpr (by decide +kernel)
  obtain ⟨hproduct, -⟩ := arithmetic_exact_or_overflow hgreatest hhalf
  obtain ⟨-, hsquare, -⟩ := arithmetic_exact_or_overflow hgreatest hgreatest
  exact ⟨hgreatest, hhalf, hproduct.mpr (by decide +kernel), hsquare.mpr (by decide +kernel),
    by decide +kernel, by decide +kernel⟩

end CostAnalysis.Scalar
