import CostAnalysis.Cost.Operations
import CostAnalysis.Proofs.Formula.Value

/-!
# Loop bounds

The bounds of a counting loop are expressions of the source, and a cost sums
over the formulas that they are converted to.  The main statement is
`Expr.Arithmetic.value_formula?`: an arithmetic expression and its formula have
the same value, if the variables that it is renamed to have the values of its
own.

The one thing that conversion may lose is a quotient of constants that outgrows
its word.  It is replaced by the mark of an overflow, so the formula is asked to
have none (`Formula.hasOverflow`).  This is asked of the whole formula only.  A
mark inside can still vanish, but just in one way: a product with zero is zero.
`Formula.ZeroFree` says that no product in a formula has kept a zero, and so
whatever made a product vanish is zero as an expression, too.
-/

namespace CostAnalysis

/-! ## Arithmetic expressions -/

namespace Expr

/-- Expressions of variables, integers, sums, differences, opposites, products
and quotients. -/
inductive Arithmetic : Expr → Prop
  | var (name : String) : Arithmetic (.var name)
  | int (z : ℤ) : Arithmetic (.literal (.int z))
  | add {a b : Expr} (ha : Arithmetic a) (hb : Arithmetic b) : Arithmetic (.binary .add a b)
  | sub {a b : Expr} (ha : Arithmetic a) (hb : Arithmetic b) : Arithmetic (.binary .sub a b)
  | mul {a b : Expr} (ha : Arithmetic a) (hb : Arithmetic b) : Arithmetic (.binary .mul a b)
  | div {a b : Expr} (ha : Arithmetic a) (hb : Arithmetic b) : Arithmetic (.binary .div a b)
  | neg {a : Expr} (ha : Arithmetic a) : Arithmetic (.unary .neg a)

/-- The value of an arithmetic expression in an environment.  Division by zero
gives zero. -/
def value (σ : String → ℚ) : Expr → ℚ
  | .var name => σ name
  | .literal (.int z) => z
  | .binary .add a b => value σ a + value σ b
  | .binary .sub a b => value σ a - value σ b
  | .binary .mul a b => value σ a * value σ b
  | .binary .div a b => value σ a / value σ b
  | .unary .neg a => -value σ a
  | _ => 0
termination_by structural e => e

end Expr

namespace Formula

/-! ## Formulas without zero factors

The constructors that conversion uses keep products free of zeros, since a zero
among the operands is folded and makes the product zero as a whole. -/

/-- The arithmetic formulas in which no product has the number zero among its
factors. -/
inductive ZeroFree : Formula → Prop
  | num (v : Scalar) : ZeroFree (.num v)
  | var (name : String) : ZeroFree (.var name)
  | plus {ts : List Formula} (h : ∀ t ∈ ts, ZeroFree t) : ZeroFree (.plus ts)
  | times {fs : List Formula} (h : ∀ f ∈ fs, ZeroFree f) (hzero : ∀ f ∈ fs, f.isZero = false) :
      ZeroFree (.times fs)
  | minus {a : Formula} (ha : ZeroFree a) : ZeroFree (.minus a)
  | quotient {a b : Formula} (ha : ZeroFree a) (hb : ZeroFree b) : ZeroFree (.over a b)

namespace ZeroFree

variable {a b : Formula}

/-- The addends of such a formula are such formulas. -/
theorem of_mem_addends (ha : ZeroFree a) {t : Formula} (ht : t ∈ a.addends) : ZeroFree t := by
  cases ha with
  | plus h => exact h t ht
  | _ =>
      cases List.mem_singleton.mp ht
      constructor <;> assumption

theorem of_mem_multiplicands (ha : ZeroFree a) {f : Formula} (hf : f ∈ a.multiplicands) :
    ZeroFree f ∧ (f.isZero = true → a.isZero = true) := by
  cases ha with
  | times h hzero =>
      refine ⟨h f hf, fun hf' => ?_⟩
      rw [hzero f hf] at hf'
      cases hf'
  | _ =>
      cases List.mem_singleton.mp hf
      exact ⟨by constructor <;> assumption, id⟩

/-- The only such formulas that plainly are numbers are the numbers. -/
theorem eq_num (ha : ZeroFree a) {v : Scalar} (hv : a.asNum? = some v) : a = .num v := by
  cases ha with
  | num w =>
      cases hv
      rfl
  | _ => cases hv

/-- A sum is folded without making a product. -/
theorem sumOf {ts : List Formula} (h : ∀ t ∈ ts, ZeroFree t) : ZeroFree (Formula.sumOf ts) := by
  match ts with
  | [] => exact .num 0
  | [t] => exact h t (by simp)
  | _ :: _ :: _ => exact .plus h

/-- Sums are free of zero factors. -/
theorem add (ha : ZeroFree a) (hb : ZeroFree b) : ZeroFree (a.add b) := by
  obtain ⟨ts, heq, hts⟩ := exists_add_eq (fun _ => ha.of_mem_addends) (fun _ => hb.of_mem_addends)
    fun v _ => .num v
  rw [heq]
  exact sumOf hts

theorem neg (ha : ZeroFree a) : ZeroFree a.neg := by
  cases ha with
  | num v =>
      rw [Formula.neg]
      split
      · exact .minus (.num v)
      · exact .num _
  | minus ha => exact ha
  | _ => exact .minus (by constructor <;> assumption)

theorem div (ha : ZeroFree a) (hb : ZeroFree b) : ZeroFree (a.div b) := by
  unfold Formula.div
  split
  · exact ha
  · split
    · split
      · exact .num _
      · exact .quotient ha hb
    · exact .quotient ha hb

theorem productOf {fs : List Formula} (h : ∀ f ∈ fs, ZeroFree f)
    (hzero : ∀ f ∈ fs, f.isZero = false) : ZeroFree (Formula.productOf fs) := by
  match fs with
  | [] => exact .times h hzero
  | [f] => exact h f (by simp)
  | _ :: _ :: _ => exact .times h hzero

theorem mul (ha : ZeroFree a) (hb : ZeroFree b) : ZeroFree (a.mul b) := by
  obtain ⟨total, factors, habsorb⟩ : ∃ total factors,
      absorb Scalar.mul? 1 (a.multiplicands ++ b.multiplicands) = (total, factors) := ⟨_, _, rfl⟩
  have hfactors : ∀ f ∈ factors, ZeroFree f := by
    intro f hf
    rcases List.mem_append.mp (mem_of_mem_absorb habsorb hf) with hf | hf
    · exact (ha.of_mem_multiplicands hf).1
    · exact (hb.of_mem_multiplicands hf).1
  -- a zero among the operands is folded, so that none is kept
  have hnonzero := isZero_of_mem_absorb habsorb
  rw [mul_eq_productOf habsorb]
  split
  · exact .num 0
  · next htotal =>
    split
    · refine productOf ?_ ?_
      · intro f hf
        rcases List.mem_cons.mp hf with rfl | hf
        · exact .num total
        · exact hfactors f hf
      · intro f hf
        rcases List.mem_cons.mp hf with rfl | hf
        · simpa [isZero, asNum?] using htotal
        · exact hnonzero f hf
    · exact productOf hfactors hnonzero

end ZeroFree

/-! ## Where marks go

A mark in an operand is found in the result again, unless the result is zero.
This is where products without zeros are needed: one that has vanished had a
factor that is zero by itself. -/

namespace ZeroFree

variable {a b : Formula}

/-- A mark can only vanish from a product if a factor is zero. -/
theorem hasOverflow_mul (ha : ZeroFree a) (hb : ZeroFree b) (h : (a.mul b).hasOverflow = false) :
    a.isZero = true ∨ b.isZero = true ∨ a.hasOverflow = false ∧ b.hasOverflow = false := by
  rcases operandwise_hasOverflow.of_mul hasOverflow_of_asNum? h with
    ⟨-, f, hf, hzero⟩ | hboth
  · rcases List.mem_append.mp hf with hf | hf
    · exact Or.inl ((ha.of_mem_multiplicands hf).2 hzero)
    · exact Or.inr (Or.inl ((hb.of_mem_multiplicands hf).2 hzero))
  · exact Or.inr (Or.inr hboth)

/-- A formula of this kind that is plainly zero has no mark. -/
theorem hasOverflow_of_isZero (ha : ZeroFree a) (h : a.isZero = true) :
    a.hasOverflow = false := by
  obtain ⟨v, hv, hzero⟩ := exists_of_isZero h
  cases ha.eq_num hv
  cases v with
  | exact q => rfl
  | overflow => cases hzero

/-- A formula of this kind that is plainly one has no mark. -/
theorem hasOverflow_of_isOne (ha : ZeroFree a) (h : a.isOne = true) : a.hasOverflow = false := by
  obtain ⟨v, hv, hone⟩ := exists_of_isOne h
  cases ha.eq_num hv
  cases v with
  | exact q => rfl
  | overflow => cases hone

/-- A quotient that was replaced by the mark still shows it. -/
theorem hasOverflow_div (ha : ZeroFree a) (hb : ZeroFree b) (h : (a.div b).hasOverflow = false) :
    a.hasOverflow = false ∧ b.hasOverflow = false ∧ a.div b ≠ .num .overflow := by
  have hmark : a.div b ≠ .num .overflow := by
    intro hdiv
    rw [hdiv] at h
    cases h
  rw [← and_assoc]
  refine ⟨?_, hmark⟩
  rw [Formula.div] at h
  split at h
  · next hone => exact ⟨h, hb.hasOverflow_of_isOne hone⟩
  · split at h
    · next x y hx hy =>
      split at h
      · next q hq =>
        -- a quotient of numbers is a product with a reciprocal, and marks
        -- absorb
        obtain ⟨r, hr, rfl⟩ := Option.map_eq_some_iff.mp hq
        obtain ⟨hx', hr'⟩ := Scalar.isOverflow_mul h
        cases ha.eq_num hx
        cases hb.eq_num hy
        refine ⟨hx', ?_⟩
        cases y with
        | exact q => rfl
        | overflow =>
            cases hr
            cases hr'
      · exact Bool.or_eq_false_iff.mp h
    · exact Bool.or_eq_false_iff.mp h

end ZeroFree

end Formula

/-! ## Converting a bound

By induction over expressions.  The one case with a condition is the quotient,
which is folded if both of its sides are numbers. -/

namespace Expr

variable {rename : String → String} {I : Reading} {σ : String → ℚ}

/-- **An arithmetic expression has a formula, and the value of that is its
own.** -/
theorem Arithmetic.value_formula? {e : Expr} (he : e.Arithmetic)
    (hnames : ∀ x ∈ e.names, I.var (rename x) = σ x) :
    ∃ F, e.formula? rename = some F ∧ F.ZeroFree ∧
      (F.hasOverflow = false → F.value I = e.value σ) := by
  induction he with
  | var name => exact ⟨_, rfl, .var _, fun _ => hnames name (by simp [names])⟩
  | int z => exact ⟨_, rfl, .num _, fun _ => rfl⟩
  | add _ _ iha ihb =>
      obtain ⟨A, hA, hAfree, hAvalue⟩ := iha fun x hx => hnames x (by simp [names, hx])
      obtain ⟨B, hB, hBfree, hBvalue⟩ := ihb fun x hx => hnames x (by simp [names, hx])
      refine ⟨A.add B, by rw [formula?, hA, hB]; rfl, hAfree.add hBfree, fun h => ?_⟩
      obtain ⟨hA', hB'⟩ :=
        Formula.operandwise_hasOverflow.of_add Formula.hasOverflow_of_asNum? h
      rw [Formula.value_add, value, hAvalue hA', hBvalue hB']
  | sub _ _ iha ihb =>
      obtain ⟨A, hA, hAfree, hAvalue⟩ := iha fun x hx => hnames x (by simp [names, hx])
      obtain ⟨B, hB, hBfree, hBvalue⟩ := ihb fun x hx => hnames x (by simp [names, hx])
      refine ⟨A.sub B, by rw [formula?, hA, hB]; rfl, hAfree.add hBfree.neg, fun h => ?_⟩
      obtain ⟨hA', hB'⟩ :=
        Formula.operandwise_hasOverflow.of_add Formula.hasOverflow_of_asNum? h
      rw [Formula.value_sub, value, hAvalue hA',
        hBvalue (Formula.operandwise_hasOverflow.neg_iff.mp hB')]
  | mul _ _ iha ihb =>
      obtain ⟨A, hA, hAfree, hAvalue⟩ := iha fun x hx => hnames x (by simp [names, hx])
      obtain ⟨B, hB, hBfree, hBvalue⟩ := ihb fun x hx => hnames x (by simp [names, hx])
      refine ⟨A.mul B, by rw [formula?, hA, hB]; rfl, hAfree.mul hBfree, fun h => ?_⟩
      rw [Formula.value_mul, value]
      -- a mark in one factor is forgotten only if the other one is zero, which
      -- decides both sides
      rcases hAfree.hasOverflow_mul hBfree h with hzero | hzero | ⟨hA', hB'⟩
      · rw [← hAvalue (hAfree.hasOverflow_of_isZero hzero), Formula.value_of_isZero I hzero,
          zero_mul, zero_mul]
      · rw [← hBvalue (hBfree.hasOverflow_of_isZero hzero), Formula.value_of_isZero I hzero,
          mul_zero, mul_zero]
      · rw [hAvalue hA', hBvalue hB']
  | div _ _ iha ihb =>
      obtain ⟨A, hA, hAfree, hAvalue⟩ := iha fun x hx => hnames x (by simp [names, hx])
      obtain ⟨B, hB, hBfree, hBvalue⟩ := ihb fun x hx => hnames x (by simp [names, hx])
      refine ⟨A.div B, by rw [formula?, hA, hB]; rfl, hAfree.div hBfree, fun h => ?_⟩
      obtain ⟨hA', hB', hmark⟩ := hAfree.hasOverflow_div hBfree h
      rw [Formula.value_div I A B hmark, value, hAvalue hA', hBvalue hB']
  | neg _ ih =>
      obtain ⟨A, hA, hAfree, hAvalue⟩ := ih hnames
      refine ⟨A.neg, by rw [formula?, hA]; rfl, hAfree.neg, fun h => ?_⟩
      rw [Formula.value_neg, value, hAvalue (Formula.operandwise_hasOverflow.neg_iff.mp h)]

end Expr

end CostAnalysis
