import CostAnalysis.Numeric.Word
import Mathlib.Algebra.Ring.Int.Defs

/-!
# Words hold what fits

Exponents and slopes are kept in words of 64 and 32 bits, clamped or wrapped
where they do not fit.  An integer that the word holds is left as it is by both.

The two differ only beyond the word: clamping keeps the sign of a number and
loses its size, and wrapping keeps the low bits and loses everything else.  So
wherever a stored number matters, the hypothesis is that it fits, and not how it
would be stored if it did not.
-/

namespace CostAnalysis.Numeric

variable {bits : ℕ} {z : ℤ}

/-- What fits a signed word, by its bounds. -/
theorem fitsSigned_iff :
    fitsSigned bits z = true ↔ -2 ^ (bits - 1) ≤ z ∧ z < 2 ^ (bits - 1) := by
  have hhalf : Int.ofNat (twoTo (bits - 1)) = 2 ^ (bits - 1) := Int.natCast_pow 2 (bits - 1)
  rw [fitsSigned, hhalf, Bool.and_eq_true, decide_eq_true_iff, decide_eq_true_iff]

/-- What fits a word is not clamped. -/
theorem saturate_of_fitsSigned (h : fitsSigned bits z = true) : saturate bits z = z := by
  simp only [fitsSigned, Bool.and_eq_true, decide_eq_true_eq] at h
  simp only [saturate]
  rw [if_neg (by omega), if_neg (by omega)]

theorem wrapSigned_of_fitsSigned (hbits : bits ≠ 0) (h : fitsSigned bits z = true) :
    wrapSigned bits z = z := by
  have hword : (twoTo bits : ℤ) = 2 * Int.ofNat (twoTo (bits - 1)) := by
    obtain ⟨k, rfl⟩ := Nat.exists_eq_succ_of_ne_zero hbits
    have htwo : twoTo (k + 1) = 2 * twoTo k := Nat.pow_succ'
    rw [htwo]
    rfl
  simp only [fitsSigned, Bool.and_eq_true, decide_eq_true_eq] at h
  rw [wrapSigned, Int.bmod_eq_of_le (by omega) (by omega)]

end CostAnalysis.Numeric
