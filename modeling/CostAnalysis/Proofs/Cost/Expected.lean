import CostAnalysis.Proofs.Cost.Bounds
import CostAnalysis.Proofs.Cost.Nodes
import Mathlib.Algebra.Order.BigOperators.Group.Finset

/-!
# The expected cost of a program

What a statement costs, said on the syntax tree and with numbers:
`Stmt.expected` takes values for the variables and adds up the operations of a
run.  There are no formulas in it, no indices and no renaming.  A loop over a
variable is a sum over the integers of its range with the variable set to each
of them, and a loop with a condition runs as often as the variable of the
innermost counting loop around it says, or depending on the size `n` of the
input if there is none.

* `Stmt.expected`, `Stmt.expectedAll`: a statement and a block
* `Stmt.expected_nonneg`: no cost is negative, by induction over both

**Values, not formulas.**  A count of iterations may come out negative or as a
fraction, and then the sum is over an empty range or over the integers up to it;
a range of integers says both.  What is charged for a program is compared with
this definition, so it is written to be read, with no regard to how costs are
computed.
-/

namespace CostAnalysis

namespace CostCase

/-- What two arms cost together: the cheaper one, the mean with weight `p` of
the first one, or the dearer one. -/
def choose (p : ℚ) : CostCase → ℚ → ℚ → ℚ
  | .best, yes, no => min yes no
  | .average, yes, no => p * yes + (1 - p) * no
  | .worst, yes, no => max yes no

/-- How often a loop with a condition runs at most.  The variable is that of the
innermost counting loop around it. -/
def iterations (σ : String → ℚ) : CostCase → Option String → ℚ
  | _, some var => σ var
  | .average, none => σ "n" / 2
  | _, none => σ "n"

/-- A loop with a condition, from the costs of its guard and its body: in the
best case the guard fails at once, otherwise it is evaluated before each
iteration and once more at the end. -/
noncomputable def repeated (count guard body : ℚ) : CostCase → ℚ
  | .best => guard
  | _ => (∑ _x ∈ Finset.Icc 1 ⌊count⌋, (guard + body)) + guard

/-- A choice between costs that are not negative is not negative, if `p` is a
probability. -/
theorem choose_nonneg {p x y : ℚ} (hp : 0 ≤ p) (hp' : p ≤ 1) (hx : 0 ≤ x) (hy : 0 ≤ y)
    (k : CostCase) : 0 ≤ k.choose p x y := by
  cases k with
  | best => exact le_min hx hy
  | average => exact add_nonneg (mul_nonneg hp hx) (mul_nonneg (sub_nonneg.mpr hp') hy)
  | worst => exact le_max_of_le_left hx

/-- A loop with a condition costs nothing negative, however often it runs: a
negative count is no iteration. -/
theorem repeated_nonneg {count guard body : ℚ} (hguard : 0 ≤ guard) (hbody : 0 ≤ body)
    (k : CostCase) : 0 ≤ k.repeated count guard body := by
  have hsum : 0 ≤ ∑ _x ∈ Finset.Icc 1 ⌊count⌋, (guard + body) :=
    Finset.sum_nonneg fun _ _ => add_nonneg hguard hbody
  cases k with
  | best => exact hguard
  | _ => exact add_nonneg hsum hguard

end CostCase

/-- The operations of a list of expressions add up. -/
theorem Expr.operationsAll_eq_sum (es : List Expr) :
    operationsAll es = (es.map operations).sum := by
  induction es with
  | nil => rfl
  | cons e es ih => rw [operationsAll, ih, List.map_cons, List.sum_cons]

namespace Stmt

/-- The operations of a statement itself, not of the blocks in it. -/
def operations : Stmt → ℕ
  | .assign _ _ value => 1 + value.operations
  | .declare _ _ => 1
  | .returns _ _ => 1
  | .evaluate _ e => e.operations
  | .call _ _ args => 1 + (args.map Expr.operations).sum
  | .action _ _ => 1
  | .forLoop _ _ _ _ _ => 0
  | .whileLoop _ cond _ => cond.operations
  | .branch _ cond _ _ => cond.operations

mutual

/-- **The expected cost of a statement** where the variables have the given
values and the innermost counting loop around it, if any, runs over the given
one. -/
noncomputable def expected (k : CostCase) (p : ℚ) : Stmt → Option String → (String → ℚ) → ℚ
  | .forLoop _ var start stop body, _, σ =>
    ∑ x ∈ Finset.Icc ⌈start.value σ⌉ ⌊stop.value σ⌋,
      expectedAll k p body (some var) (Function.update σ var x)
  | .whileLoop _ cond body, loop?, σ =>
    k.repeated (k.iterations σ loop?) cond.operations (expectedAll k p body loop? σ)
  | .branch _ cond yes (some no), loop?, σ =>
    cond.operations + k.choose p (expectedAll k p yes loop? σ) (expectedAll k p no loop? σ)
  | .branch _ cond yes none, loop?, σ =>
    cond.operations + k.choose p (expectedAll k p yes loop? σ) 0
  | .assign l target value, _, _ => operations (.assign l target value)
  | .declare l names, _, _ => operations (.declare l names)
  | .returns l value, _, _ => operations (.returns l value)
  | .evaluate l e, _, _ => operations (.evaluate l e)
  | .call l name args, _, _ => operations (.call l name args)
  | .action l text, _, _ => operations (.action l text)
termination_by structural st => st

/-- The expected cost of a block: the costs of its statements add up. -/
noncomputable def expectedAll (k : CostCase) (p : ℚ) : List Stmt → Option String → (String → ℚ) → ℚ
  | [], _, _ => 0
  | st :: sts, loop?, σ => expected k p st loop? σ + expectedAll k p sts loop? σ
termination_by structural sts => sts

end

mutual

/-- No cost is negative.  A sum over integers is one of terms that are not
negative, and the other statements put such costs together. -/
theorem expected_nonneg (k : CostCase) {p : ℚ} (hp : 0 ≤ p) (hp' : p ≤ 1) :
    ∀ (st : Stmt) (loop? : Option String) (σ : String → ℚ), 0 ≤ st.expected k p loop? σ
  | .forLoop _ var start stop body, _, σ => by
      rw [expected]
      exact Finset.sum_nonneg fun x _ => expectedAll_nonneg k hp hp' body (some var) _
  | .whileLoop _ cond body, loop?, σ => by
      rw [expected]
      exact k.repeated_nonneg (Nat.cast_nonneg _) (expectedAll_nonneg k hp hp' body loop? σ)
  | .branch _ cond yes (some no), loop?, σ => by
      rw [expected]
      have hyes := expectedAll_nonneg k hp hp' yes loop? σ
      have hno := expectedAll_nonneg k hp hp' no loop? σ
      exact add_nonneg (Nat.cast_nonneg _) (k.choose_nonneg hp hp' hyes hno)
  | .branch _ cond yes none, loop?, σ => by
      rw [expected]
      have hyes := expectedAll_nonneg k hp hp' yes loop? σ
      exact add_nonneg (Nat.cast_nonneg _) (k.choose_nonneg hp hp' hyes le_rfl)
  | .assign _ _ _, _, _ => Nat.cast_nonneg _
  | .declare _ _, _, _ => Nat.cast_nonneg _
  | .returns _ _, _, _ => Nat.cast_nonneg _
  | .evaluate _ _, _, _ => Nat.cast_nonneg _
  | .call _ _ _, _, _ => Nat.cast_nonneg _
  | .action _ _, _, _ => Nat.cast_nonneg _
termination_by structural st => st

/-- The same for a block, by its statements. -/
theorem expectedAll_nonneg (k : CostCase) {p : ℚ} (hp : 0 ≤ p) (hp' : p ≤ 1) :
    ∀ (sts : List Stmt) (loop? : Option String) (σ : String → ℚ),
      0 ≤ expectedAll k p sts loop? σ
  | [], _, _ => le_rfl
  | st :: sts, loop?, σ => by
      rw [expectedAll]
      exact add_nonneg (expected_nonneg k hp hp' st loop? σ)
        (expectedAll_nonneg k hp hp' sts loop? σ)
termination_by structural sts => sts

end

end Stmt

end CostAnalysis
