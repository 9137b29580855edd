import CostAnalysis.Algebra.Summation
import CostAnalysis.Proofs.Poly.Plain
import Mathlib.Algebra.Order.Interval.Finset.SuccPred
import Mathlib.Data.Int.SuccPred
import Mathlib.NumberTheory.Bernoulli

/-!
# Sums of powers

Faulhaber's formula, as it is computed here.  `faulhaber k` is the rational
function that `Summation.powerSum k` stands for.  Its difference at neighbouring
points is the `k`-th power (`faulhaber_sub`), at every rational number and not
only at the naturals, so that it telescopes over any range of integers
(`sum_Icc_pow`), below zero as well as above.

That the computed coefficients are the Bernoulli numbers follows from the
recurrence they are computed by.  No coefficient is ever looked at: an overflow
among them would show as a mark, and `Scalar.Denotes` lets a mark stand for any
number.

**At every rational number.**  The formula is first known at naturals, where it
is the sum.  Two polynomials that agree at infinitely many numbers are equal, so
its difference is a power everywhere, and only this lets a range begin below
zero.
-/

namespace CostAnalysis

open Finset

/-- The recurrence of the Bernoulli numbers with `B₁ = -1/2`, written with those
of the other sign. -/
theorem sum_choose_mul_bernoulli (n : ℕ) :
    ∑ j ∈ range n, (n.choose j : ℚ) * ((-1) ^ j * bernoulli' j) = if n = 1 then 1 else 0 := by
  rw [← sum_bernoulli n]
  rfl

/-- Each number from the earlier ones, as the recurrence gives it. -/
theorem neg_one_pow_mul_bernoulli'_succ (m : ℕ) :
    (-1) ^ (m + 1) * bernoulli' (m + 1) =
      -(∑ j ∈ range (m + 1), ((m + 2).choose j : ℚ) * ((-1) ^ j * bernoulli' j)) *
        ((m + 2 : ℕ) : ℚ)⁻¹ := by
  have hrec := sum_choose_mul_bernoulli (m + 2)
  rw [if_neg (by omega), sum_range_succ, Nat.choose_succ_self_right] at hrec
  have hne : ((m + 2 : ℕ) : ℚ) ≠ 0 := by exact_mod_cast Nat.succ_ne_zero (m + 1)
  rw [eq_mul_inv_iff_mul_eq₀ hne]
  push_cast at hrec ⊢
  linarith

/-- Only the first of the Bernoulli numbers depends on the convention about
signs. -/
theorem neg_one_pow_mul_bernoulli' {j : ℕ} (hj : j ≠ 1) : (-1) ^ j * bernoulli' j = bernoulli' j :=
  bernoulli_eq_bernoulli'_of_ne_one hj

namespace Summation

/-! ## Faulhaber's formula -/

/-- The value of the sum of the `k`-th powers of `1, ..., x`, for any rational
`x`. -/
def faulhaber (k : ℕ) (x : ℚ) : ℚ :=
  1 / (k + 1 : ℕ) * ∑ j ∈ range (k + 1), ((k + 1).choose j * bernoulli' j) * x ^ (k + 1 - j)

/-- At a natural number it is the sum of the powers below and at it. -/
theorem faulhaber_natCast (k n : ℕ) :
    faulhaber k n = ∑ i ∈ Ico 1 (n + 1), (i : ℚ) ^ k := by
  rw [sum_Ico_pow, faulhaber, mul_sum]
  refine sum_congr rfl fun j _ => ?_
  push_cast
  ring

/-- The formula as a polynomial. -/
noncomputable def faulhaberPoly (k : ℕ) : Polynomial ℚ :=
  .C (1 / (k + 1 : ℕ)) *
    ∑ j ∈ range (k + 1), .C ((k + 1).choose j * bernoulli' j) * .X ^ (k + 1 - j)

theorem eval_faulhaberPoly (k : ℕ) (x : ℚ) : (faulhaberPoly k).eval x = faulhaber k x := by
  simp [faulhaberPoly, faulhaber, Polynomial.eval_finsetSum]

/-- **The difference at neighbouring points** is a power.  At naturals it is the
last summand; two polynomials that agree there agree everywhere. -/
theorem faulhaber_sub (k : ℕ) (x : ℚ) : faulhaber k x - faulhaber k (x - 1) = x ^ k := by
  have hpoly : faulhaberPoly k = (faulhaberPoly k).comp (.X - 1) + .X ^ k := by
    refine Polynomial.eq_of_infinite_eval_eq _ _ (Set.Infinite.mono ?_
      (Set.infinite_range_of_injective (f := fun n : ℕ => (n + 1 : ℚ)) fun a b h => ?_))
    · rintro _ ⟨n, rfl⟩
      have hsum := faulhaber_natCast k (n + 1)
      rw [sum_Ico_succ_top (by omega), ← faulhaber_natCast] at hsum
      push_cast at hsum
      simp [eval_faulhaberPoly, hsum]
    · simpa using h
  have heval := congrArg (Polynomial.eval x) hpoly
  simp only [Polynomial.eval_add, Polynomial.eval_comp, Polynomial.eval_sub, Polynomial.eval_X,
    Polynomial.eval_one, Polynomial.eval_pow, eval_faulhaberPoly] at heval
  rw [heval, add_sub_cancel_left]

/-- The sum of the powers of the integers of a range, which may be empty but not
less. -/
theorem sum_Icc_pow (k : ℕ) {a b : ℤ} (hab : a - 1 ≤ b) :
    ∑ i ∈ Icc a b, (i : ℚ) ^ k = faulhaber k b - faulhaber k (a - 1) := by
  induction b, hab using Int.leInduction with
  | base => simp
  | succ b hb ih =>
      rw [← insert_Icc_right_eq_Icc_add_one (by omega), sum_insert (by simp), ih]
      have hstep := faulhaber_sub k (b + 1)
      rw [add_sub_cancel_right] at hstep
      push_cast
      rw [← hstep]
      ring

/-! ## The coefficients

The computation uses scalars that may overflow, and the statement is one about
what they denote.  A mark denotes any number, so that no bound on the size of
the numbers is needed. -/

/-- The multiplicative formula gives the binomial coefficients. -/
theorem binomial_eq_choose (n k : ℕ) : binomial n k = n.choose k := by
  induction k with
  | zero => exact (n.choose_zero_right).symm
  | succ k ih =>
      have hstep : binomial n (k + 1) = binomial n k * (n - k) / (k + 1) := by
        simp only [binomial, List.range_succ, List.foldl_append, List.foldl_cons, List.foldl_nil]
      rw [hstep, ih, ← Nat.choose_succ_right_eq, Nat.mul_div_cancel _ (Nat.succ_pos k)]

/-- The sum in the recurrence denotes the sum of what its summands denote. -/
theorem denotes_foldl_zipIdx (n : ℕ) (g : ℕ → ℚ) (bs : List Scalar) (i : ℕ) {acc : Scalar} {x : ℚ}
    (hacc : acc.Denotes x) (hbs : ∀ (j : ℕ) (b : Scalar), bs[j]? = some b → b.Denotes (g (i + j))) :
    ((bs.zipIdx i).foldl (fun acc b => acc + Scalar.ofNat (binomial n b.2) * b.1) acc).Denotes
      (x + ∑ j ∈ range bs.length, n.choose (i + j) * g (i + j)) := by
  induction bs generalizing i acc x with
  | nil => simpa using hacc
  | cons b bs ih =>
      have hb : b.Denotes (g i) := hbs 0 b rfl
      have hfirst : (acc + Scalar.ofNat (binomial n i) * b).Denotes (x + n.choose i * g i) := by
        rw [binomial_eq_choose]
        exact hacc.add ((Scalar.Denotes.exact _).mul hb)
      have hrest := ih (i + 1) hfirst fun j b hj => by
        rw [add_assoc, add_comm 1 j]
        exact hbs (j + 1) b hj
      rw [List.zipIdx_cons, List.foldl_cons, List.length_cons, sum_range_succ']
      simp only [add_assoc, add_comm 1, add_zero] at hrest ⊢
      rwa [add_comm (∑ _ ∈ _, _)]

/-- Dividing by a natural whose word holds it. -/
theorem denotes_div? {s : Scalar} {x : ℚ} (hs : s.Denotes x) {n : ℕ} (hn : n ≠ 0)
    (hfits : n < Numeric.twoTo 127) : ((s.div? (.ofNat n)).getD 0).Denotes (x * (n : ℚ)⁻¹) := by
  have hrecip : (Scalar.exact (n : ℚ)).recip? = some (.exact (n : ℚ)⁻¹) :=
    Scalar.recip?_exact (by exact_mod_cast hn) (decide_eq_true hfits)
      (by simp [Scalar.fits, Numeric.twoTo])
  rw [Scalar.div?, Scalar.ofNat_eq, hrecip]
  exact hs.mul (.exact _)

/-- **The computed numbers are the Bernoulli numbers**, as far as they fit. -/
theorem denotes_bernoulliMinus (m : ℕ) (hm : m + 1 < Numeric.twoTo 127) :
    (bernoulliMinus m).length = m + 1 ∧
      ∀ (j : ℕ) (b : Scalar), (bernoulliMinus m)[j]? = some b →
        b.Denotes ((-1) ^ j * bernoulli' j) := by
  induction m with
  | zero =>
      refine ⟨rfl, fun j b hj => ?_⟩
      cases j with
      | zero =>
          cases hj
          rw [pow_zero, one_mul, bernoulli'_zero]
          exact .exact 1
      | succ j => cases hj
  | succ m ih =>
      obtain ⟨hlength, hearlier⟩ := ih (by omega)
      refine ⟨by simp [bernoulliMinus, hlength], fun j b hj => ?_⟩
      simp only [bernoulliMinus] at hj
      -- the first `m + 1` numbers are those of the shorter list; only the last
      -- one is new
      rcases Nat.lt_or_ge j (m + 1) with hlt | hge
      · rw [List.getElem?_append_left (by omega)] at hj
        exact hearlier j b hj
      · have hj' : j = m + 1 := by
          by_contra hne
          rw [List.getElem?_append_right (by omega), hlength,
            List.getElem?_eq_none (by simp; omega)] at hj
          cases hj
        subst hj'
        rw [List.getElem?_append_right (by omega), hlength, Nat.sub_self] at hj
        cases hj
        have hsum := denotes_foldl_zipIdx (m + 2) (fun j => (-1) ^ j * bernoulli' j)
          (bernoulliMinus m) 0 (.exact 0) fun j b hj => by simpa using hearlier j b hj
        simp only [zero_add, hlength] at hsum
        rw [neg_one_pow_mul_bernoulli'_succ]
        exact denotes_div? hsum.neg (by omega) hm

/-- The Bernoulli numbers with `B₁ = 1/2`, up to the largest power that is
summed. -/
theorem denotes_bernoulli {j : ℕ} (hj : j ≤ maxPower) :
    (bernoulli.getD j 0).Denotes (bernoulli' j) := by
  obtain ⟨hlength, hminus⟩ := denotes_bernoulliMinus (maxPower + 1) (by decide)
  obtain ⟨b, hb⟩ : ∃ b, (bernoulliMinus (maxPower + 1))[j]? = some b :=
    ⟨_, List.getElem?_eq_getElem (by omega)⟩
  have hget : bernoulli.getD j 0 = if j = 1 then -b else b := by
    simp [bernoulli, List.getD_eq_getElem?_getD, hb]
  have hdenotes := hminus j b hb
  rw [hget]
  split
  · next h1 =>
      subst h1
      simpa using hdenotes.neg
  · next h1 => rwa [neg_one_pow_mul_bernoulli' h1] at hdenotes

/-! ## The closed form -/

/-- **Faulhaber's formula** for a symbolic argument: the closed form stands for
the formula at the value of the argument. -/
theorem represents_powerSum {S : Set Reading} {d k : ℕ} {p : Poly} {f : Reading → ℚ}
    (hp : p.Represents S d f) (hk : k ≤ maxPower) (hd : (k + 1) * d < 2 ^ 63) :
    (powerSum k p).Represents S ((k + 1) * d) fun I => faulhaber k (f I) := by
  have hmax : maxPower = 24 := rfl
  -- after `n` rounds the loop has the first `n` terms of the formula
  have hloop : ∀ n ≤ k + 1, ((List.range n).foldl
      (fun acc j =>
        if (Scalar.ofNat (binomial (k + 1) j) * bernoulli.getD j 0).isZero then acc
        else acc.add ((p.powNat (k + 1 - j)).scale
          (Scalar.ofNat (binomial (k + 1) j) * bernoulli.getD j 0)))
      Poly.zero).Represents S ((k + 1) * d) fun I =>
        ∑ j ∈ range n, ((k + 1).choose j * bernoulli' j) * f I ^ (k + 1 - j) := by
    intro n hn
    induction n with
    | zero => exact Poly.represents_zero S _
    | succ j ih =>
        have hacc := ih (by omega)
        have hc : (Scalar.ofNat (binomial (k + 1) j) * bernoulli.getD j 0).Denotes
            ((k + 1).choose j * bernoulli' j) := by
          rw [binomial_eq_choose]
          exact (Scalar.Denotes.exact _).mul (denotes_bernoulli (by omega))
        have hle : (k + 1 - j) * d ≤ (k + 1) * d := Nat.mul_le_mul_right d (Nat.sub_le _ _)
        simp only [List.range_succ, List.foldl_append, List.foldl_cons, List.foldl_nil,
          sum_range_succ]
        split
        · next hzero =>
            -- a coefficient that is skipped contributes nothing
            simp only [hc.eq_zero hzero, zero_mul, add_zero]
            exact hacc
        · exact hacc.add (((hp.powNat (k + 1 - j) (by omega)).scale hc).mono hle)
  have hfraction : (Scalar.ofFraction? 1 (Int.ofNat (k + 1))).getD 1 =
      .exact (1 / (k + 1 : ℕ)) := by
    rw [Scalar.ofFraction?_eq (by simp; omega) (by decide) (decide_eq_true ?_)]
    · simp
    · exact lt_of_le_of_lt (show k + 1 ≤ 25 by omega) (by decide)
  rw [powerSum, hfraction]
  exact (hloop (k + 1) le_rfl).scale (.exact _)

end Summation

end CostAnalysis
