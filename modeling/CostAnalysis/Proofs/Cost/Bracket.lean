import CostAnalysis.Proofs.Cost.Order

/-!
# The lines of a program bracket its best and its worst case

On average the lines of a program share its cost.  In the best case a line
inside a branch or inside a loop with a condition is charged nothing, and in the
worst case the lines of both arms of a branch are charged.  So the lines cost at
most the best case of the program together, and at least its worst case
(`CostReport.lines_bracket_total`).  The only place where they are charged more
in the worst case is an arm for a guard that fails, and without such arms they
are charged exactly that case.

All three facts are instances of `Stmt.Shares`, which leaves only the branches:
there the minimum of two costs that are not negative is compared with zero, and
their maximum with their sum.

**Why lines are charged too little or too much.**  A line stands for the
statements on it and knows nothing of the other arm of a branch around them.  In
the best case what stands in an arm is charged nothing, and in the worst case
all of it, so that the two arms are not weighed against each other.
-/

namespace CostAnalysis

namespace Stmt

/-- Whether the statement is a branch with an arm for a guard that fails. -/
def hasElse : Stmt → Bool
  | .branch _ _ _ (some _) => true
  | _ => false

variable {rules : CostRules} {p : ℚ}

/-- **A branch, its arms being known.**  In a case other than the average a
branch costs its guard and the chosen one of two costs that are not negative. -/
theorem valueIn_branch (hrules : rules.Weighs p) {k : CostCase} (hk : k ≠ .average) (l : LineSpan)
    (cond : Expr) (yes : Block) (no : Option Block) (s : Surroundings)
    (h : ∀ t ∈ preorder (.branch l cond yes no), Scalar.fits t.operations = true) (I : Reading) :
    0 ≤ (blockCost rules (s.inside .yes) yes).valueIn k I ∧
    0 ≤ (elseCost rules s no).valueIn k I ∧
    (nodes rules s (.branch l cond yes no)).1.valueIn k I =
      (Cost.uniform (Formula.int (Int.ofNat cond.operations))).valueIn k I +
        k.choose p ((blockCost rules (s.inside .yes) yes).valueIn k I)
          ((elseCost rules s no).valueIn k I) := by
  have hyesFits : ∀ t ∈ preorderAll yes, Scalar.fits t.operations = true := fun t ht =>
    h t (by cases no <;> simp [preorder, ht])
  have hyes := ((inOrder_block hrules yes (s.inside .yes) hyesFits).1 I).nonneg k
  have hyesTerms := integralTerms_blockCost hrules hk (s.inside .yes) hyesFits
  -- a missing second arm counts as one that costs nothing
  have hnode : (nodes rules s (.branch l cond yes no)).1 =
      Cost.choice (Formula.int (Int.ofNat cond.operations)) (blockCost rules (s.inside .yes) yes)
        (elseCost rules s no) (.exact p) := by
    rw [← hrules.probability]
    cases no <;> rfl
  obtain ⟨hno, hnoTerms⟩ : 0 ≤ (elseCost rules s no).valueIn k I ∧
      ((elseCost rules s no).of k).IntegralTerms := by
    cases no with
    | none => exact ⟨(Cost.Ordered.zero.nonneg k), (Cost.of_zero k).symm ▸ .zero⟩
    | some no =>
        have hnoFits : ∀ t ∈ preorderAll no, Scalar.fits t.operations = true := fun t ht =>
          h t (by simp [preorder, ht])
        exact ⟨((inOrder_block hrules no (s.inside .no) hnoFits).1 I).nonneg k,
          integralTerms_blockCost hrules hk (s.inside .no) hnoFits⟩
  refine ⟨hyes, hno, ?_⟩
  rw [Cost.valueIn, hnode, Cost.value_choice k I hrules.one_sub hyes hno (fun _ => hyesTerms)
    (fun _ => hnoTerms), Cost.valueIn, Cost.of_uniform]
  rfl

/-- In the best case the arms of a branch are charged nothing, which is at most
their minimum. -/
theorem shares_best (hrules : rules.Weighs p) :
    Shares rules .best (fun st => Scalar.fits st.operations = true) (· ≤ ·) where
  refl := le_refl
  trans := le_trans
  add h h' I := add_le_add (h I) (h' I)
  spread scope _ _ := Scope.spread_mono rules.probability (by decide) scope
  branch l cond yes no s h := by
    intro I
    obtain ⟨hyes, hno, hcost⟩ := valueIn_branch hrules (k := .best) (by decide) l cond yes no s h I
    rw [hcost]
    simp only [chargedBranch, Pi.add_apply, Scope.spread, CostCase.weight, zero_mul, add_zero]
    exact le_add_of_nonneg_right (le_min hyes hno)

/-- In the worst case both arms of a branch are charged, which is at least their
maximum. -/
theorem shares_worst (hrules : rules.Weighs p) :
    Shares rules .worst (fun st => Scalar.fits st.operations = true) (· ≥ ·) where
  refl := le_refl
  trans h h' := le_trans h' h
  add h h' I := add_le_add (h I) (h' I)
  spread scope _ _ := Scope.spread_mono rules.probability (by decide) scope
  branch l cond yes no s h := by
    intro I
    obtain ⟨hyes, hno, hcost⟩ := valueIn_branch hrules (k := .worst) (by decide) l cond yes no s h I
    rw [hcost]
    simp only [chargedBranch, Pi.add_apply, Scope.spread, CostCase.weight, one_mul]
    exact add_le_add_right (max_le_add_of_nonneg hyes hno) _

/-- Where there is only one arm it is the dearer one. -/
theorem shares_worst_of_no_else (hrules : rules.Weighs p) :
    Shares rules .worst (fun st => Scalar.fits st.operations = true ∧ st.hasElse = false)
      (· = ·) where
  refl _ := rfl
  trans := Eq.trans
  add := congrArg₂ (· + ·)
  spread scope _ _ := congrArg (scope.spread .worst rules.probability)
  branch l cond yes no s h := by
    cases no with
    | some no => exact absurd (h _ (self_mem_preorder _)).2 (by simp [hasElse])
    | none =>
        funext I
        obtain ⟨hyes, -, hcost⟩ := valueIn_branch hrules (k := .worst) (by decide) l cond yes none s
          (fun t ht => (h t ht).1) I
        rw [hcost]
        have hzero : (elseCost rules s none).valueIn .worst = 0 := Cost.valueIn_zero _
        simp only [chargedBranch, hzero, Scope.spread_zero, Pi.add_apply, Pi.zero_apply,
          Scope.spread, CostCase.weight, one_mul, add_zero]
        exact congrArg _ (max_eq_left hyes).symm

end Stmt

namespace CostReport

/-- **The lines of a program that was read from a text in memory bracket its
best and its worst case**: they cost at most its best case together and at least
its worst case, and exactly the latter if no branch has an arm for a guard that
fails.  The rules charge no loop control; all values are arbitrary, that of the
size of the input among them. -/
theorem lines_bracket_total {source : String} {p : Program} (hp : Program.parse source = .ok p)
    (hsize : source.length < 2 ^ 63) {rules : CostRules} {q : ℚ} (hrules : rules.Weighs q)
    (text : String) (I : Reading) :
    ((ofProgram rules p text).lines.map fun line => line.cost.best.value I).sum ≤
      (ofProgram rules p text).total.best.value I ∧
    (ofProgram rules p text).total.worst.value I ≤
      ((ofProgram rules p text).lines.map fun line => line.cost.worst.value I).sum ∧
    ((∀ f ∈ p.functions, ∀ st ∈ Stmt.preorderAll f.body, st.hasElse = false) →
      ((ofProgram rules p text).lines.map fun line => line.cost.worst.value I).sum =
        (ofProgram rules p text).total.worst.value I) := by
  have hlocated : ∀ n ∈ (p.nodes rules).2, ∃ line, n.lines.first? = some line :=
    Program.first?_of_mem_nodes (Program.located_of_parse hp)
  have hlines := fun k => LineCost.sum_valueIn_ofNodes k rules.probability text hlocated I
  have hfits := Program.fits_operations_of_parse hp hsize
  refine ⟨?_, ?_, fun helse => ?_⟩
  · exact (hlines .best).trans_le (Program.totalCharge_nodes (Stmt.shares_best hrules) hfits I)
  · exact (Program.totalCharge_nodes (Stmt.shares_worst hrules) hfits I).trans_eq
      (hlines .worst).symm
  · have htotal := Program.totalCharge_nodes (Stmt.shares_worst_of_no_else hrules)
      fun f hf st hst => ⟨hfits f hf st hst, helse f hf st hst⟩
    exact (hlines .worst).trans (congrFun htotal I)

/-- A branch with one arm inside a counting loop, and a loop with a condition in
that arm. -/
def guardedSource : String :=
  "f(n) begin\nfor i 🡨 1 to n do begin\nif x < i then begin\nx 🡨 x + 1\n" ++
    "while x < n do begin x 🡨 2 end\nend end end"

theorem lines_bracket_total_guardedSource :
    ∃ p, Program.parse guardedSource = .ok p ∧ guardedSource.length < 2 ^ 63 ∧
      Function.evenRules.Weighs (1 / 2) ∧
      (∀ f ∈ p.functions, ∀ st ∈ Stmt.preorderAll f.body, st.hasElse = false) ∧
      ((ofProgram Function.evenRules p guardedSource).lines.map fun line =>
        line.cost.best.value (Formula.sizedReading 3)).sum ≤ 3 ∧
      ((ofProgram Function.evenRules p guardedSource).lines.map fun line =>
        line.cost.worst.value (Formula.sizedReading 3)).sum = 24 := by
  have hreport : (Program.parse guardedSource).toOption.map (fun p =>
      (p.functions.all fun f => (Stmt.preorderAll f.body).all fun st => !st.hasElse,
        (ofProgram Function.evenRules p guardedSource).total.best.value (Formula.sizedReading 3),
        (ofProgram Function.evenRules p guardedSource).total.worst.value
          (Formula.sizedReading 3))) =
      some (true, 3, 24) := by
    decide +kernel
  have hsize : guardedSource.length < 2 ^ 63 := by decide +kernel
  cases hparse : Program.parse guardedSource with
  | error e =>
      rw [hparse] at hreport
      cases hreport
  | ok p =>
      rw [hparse] at hreport
      obtain ⟨helse, hvalues⟩ := Prod.mk.inj (Option.some.inj hreport)
      obtain ⟨hbest, hworst⟩ := Prod.mk.inj hvalues
      have hone : ∀ f ∈ p.functions, ∀ st ∈ Stmt.preorderAll f.body, st.hasElse = false := by
        simpa using helse
      obtain ⟨hle, -, heq⟩ := lines_bracket_total hparse hsize Function.evenRules_weighs
        guardedSource (Formula.sizedReading 3)
      exact ⟨p, rfl, hsize, Function.evenRules_weighs, hone, hle.trans_eq hbest,
        (heq hone).trans hworst⟩

end CostReport

end CostAnalysis
