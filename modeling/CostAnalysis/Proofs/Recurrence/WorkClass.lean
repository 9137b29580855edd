import CostAnalysis.Proofs.Growth
import CostAnalysis.Proofs.Growth.Induction
import CostAnalysis.Recurrence.Derived

/-!
# The class of derived work

The work of a derived recurrence is made from the class of growth of what is
left of the procedure without its self-calls.  All variables of the class are
taken for the size `n`, so that only totals can be compared: the total degree
and the total power of logarithms.

**Both totals are kept**, whatever the class is.  A total is a sum of scalars,
so that it is the mark of an overflow or fits its word, and either is the same
when it is added to zero once more.

**Exponential factors are lost**: the work is never exponential, and still
counts as known.  So it is exponential exactly where its class is only if the
class has no exponential factors.

Both hold of classes without opaque text, and of the work of every derived
recurrence whose residual cost is of such a class
(`DerivedRecurrence.growth_work`).  A closed form without opaque fragments has
one (`Growth.verbatim_ofPoly`).
-/

namespace CostAnalysis

namespace Growth

/-! ## Totals -/

/-- A total is the mark of an overflow or fits its word. -/
theorem bounded_total (powers : List (String × Scalar)) {s : Scalar} (hs : s.Bounded) :
    (powers.foldl (fun acc d => acc + d.2) s).Bounded := by
  induction powers generalizing s with
  | nil => exact hs
  | cons d powers ih => exact ih (Scalar.bounded_add s d.2)

/-- A total degree is a sum of scalars, and so it fits its word or is the mark
of an overflow. -/
theorem bounded_degree (g : Growth) : g.degree.Bounded :=
  bounded_total g.degrees Scalar.zero_fits.bounded

theorem bounded_logCount (g : Growth) : g.logCount.Bounded :=
  bounded_total g.logs Scalar.zero_fits.bounded

/-- The total of a single power. -/
theorem total_powers {v : String} {d : Scalar} (hd : d.Bounded) :
    (powers v d).foldl (fun acc d => acc + d.2) 0 = d := by
  rcases hd with rfl | hfits
  · rfl
  · exact sum_powers hfits

end Growth

/-! ## Work -/

namespace Work

/-- The class of work that is made from a class without opaque text. -/
theorem growth_ofGrowth_eq {g : Growth} (h : g.verbatim = none) :
    (ofGrowth g).growth = .polylog "n" g.degree g.logCount := by
  rw [ofGrowth, h]

/-- The work is known, and has the total degree and the total power of
logarithms of the class. -/
structure KeepsTotals (w : Work) (g : Growth) : Prop where
  known : w.known = true
  degree : w.growth.degree = g.degree
  logCount : w.growth.logCount = g.logCount

/-- **The work keeps both totals** of a class without opaque text. -/
theorem keepsTotals_ofGrowth {g : Growth} (h : g.verbatim = none) : (ofGrowth g).KeepsTotals g where
  known := by rw [ofGrowth, h]
  degree := by
    rw [growth_ofGrowth_eq h]
    exact Growth.total_powers g.bounded_degree
  logCount := by
    rw [growth_ofGrowth_eq h]
    exact Growth.total_powers g.bounded_logCount

/-- **The work is never exponential**, whether the class is or not. -/
theorem isExponential_ofGrowth {g : Growth} (h : g.verbatim = none) :
    (ofGrowth g).isExponential = false := by
  rw [isExponential, growth_ofGrowth_eq h]
  rfl

end Work

namespace DerivedRecurrence

/-- The closed form of the cost of what is left of a procedure without its
self-calls. -/
def residualForm (rules : CostRules) (p : Program) (f : Function) (source : String) : Poly :=
  (CostReport.ofProgram rules (p.residual f) source).total.worst.simplify.poly

/-- Its class of growth, in all of its variables. -/
def residualGrowth (rules : CostRules) (p : Program) (f : Function) (source : String) : Growth :=
  .ofPoly (residualForm rules p f source).freeVars (residualForm rules p f source)

/-- The work of a derived recurrence comes from the total of what is left of the
procedure. -/
theorem work_ofProgram {rules : CostRules} {p : Program} {name source : String} {f : Function}
    {d : DerivedRecurrence} (hf : p.function? name = some f)
    (hd : ofProgram rules p name source = .ok d) :
    d.work = workOf (CostReport.ofProgram rules (p.residual f) source).total.worst := by
  rw [ofProgram, hf] at hd
  obtain rfl := Except.ok.inj hd
  rfl

/-- The work is constant where nothing is left, and otherwise that of the
class. -/
theorem workOf_eq (worst : Formula) :
    workOf worst = if worst.simplify.poly.isZero then .constant
      else .ofGrowth (.ofPoly worst.simplify.poly.freeVars worst.simplify.poly) := rfl

/-- The class of the empty sum is that of constants. -/
theorem ofPoly_of_isZero {p : Poly} (vars : List String) (h : p.isZero = true) :
    Growth.ofPoly vars p = .constant := by
  obtain ⟨ts⟩ := p
  obtain rfl : ts = [] := List.isEmpty_iff.mp h
  rfl

/-- Both hold of the work of a formula.  Nothing left has the totals of a
constant. -/
theorem keepsTotals_workOf {worst : Formula} {g : Growth} (hg : g.verbatim = none)
    (hclass : .ofPoly worst.simplify.poly.freeVars worst.simplify.poly = g) :
    (workOf worst).KeepsTotals g ∧ (workOf worst).isExponential = false := by
  rw [workOf_eq]
  split
  · next hzero =>
      rw [ofPoly_of_isZero _ hzero] at hclass
      rw [← hclass]
      exact ⟨⟨rfl, rfl, rfl⟩, rfl⟩
  · rw [hclass]
    exact ⟨Work.keepsTotals_ofGrowth hg, Work.isExponential_ofGrowth hg⟩

/-- **Work keeps the totals of its class and loses its exponential factors.**
The work of a class without opaque text is known, with the total degree and the
total power of logarithms of the class.  It is never exponential, so that it is
exponential exactly where its class is if and only if the class has no
exponential factors.  The same holds of the work of every derived recurrence
whose residual cost is of this class. -/
theorem growth_work {g : Growth} (hg : g.verbatim = none) :
    ((Work.ofGrowth g).KeepsTotals g ∧
        (((Work.ofGrowth g).isExponential = true ↔ g.exponentials ≠ []) ↔ g.exponentials = [])) ∧
      ∀ (rules : CostRules) (p : Program) (name source : String) (f : Function)
        (d : DerivedRecurrence), p.function? name = some f →
        ofProgram rules p name source = .ok d → residualGrowth rules p f source = g →
        d.work.KeepsTotals g ∧
          ((d.work.isExponential = true ↔ g.exponentials ≠ []) ↔ g.exponentials = []) := by
  refine ⟨⟨Work.keepsTotals_ofGrowth hg, ?_⟩, fun rules p name source f d hf hd hclass => ?_⟩
  · simp [Work.isExponential_ofGrowth hg]
  · obtain ⟨htotals, hexponential⟩ := keepsTotals_workOf hg hclass
    rw [← work_ofProgram hf hd] at htotals hexponential
    refine ⟨htotals, ?_⟩
    simp [hexponential]

/-- A procedure that counts up to a bound before it calls itself on the next
smaller size. -/
def counting (stop : Expr) : Function where
  name := "f"
  params := [⟨"n", false⟩]
  body := [
    .forLoop (.lines 2 4) "i" (.int 1) stop [.assign (.lines 3 3) (.var "x") (.int 1)],
    .call (.lines 5 5) "f" [.binary .sub (.var "n") (.int 1)]]
  lines := .lines 1 6

/-- The rules that the default settings stand for. -/
def plainRules : CostRules where
  probability := .half
  countLoopControl := false
  incrementOperations := 1
  whileAverage := .over (.var "n") (.int 2)
  whileWorst := .var "n"

/-- The class `n ^ 2 · m log n` becomes work of degree three with one logarithm,
and counting up to `n` is linear work. -/
theorem growth_work_linear :
    (Work.ofGrowth { degrees := [("n", 2), ("m", 1)], logs := [("n", 1)] }).text = "n^3 log n" ∧
      (Work.ofGrowth { degrees := [("n", 2), ("m", 1)], logs := [("n", 1)] }).growth.degree = 3 ∧
      ∃ d, ofProgram plainRules ⟨[counting (.var "n")]⟩ "f" "" = .ok d ∧
        d.work.growth.degree = 1 ∧ d.work.growth.logCount = 0 := by
  have htotals :=
    (growth_work (g := { degrees := [("n", 2), ("m", 1)], logs := [("n", 1)] }) rfl).1.1
  have hclass : (residualGrowth plainRules ⟨[counting (.var "n")]⟩ (counting (.var "n"))
      "").verbatim = none :=
    Growth.verbatim_ofPoly _ (by decide +kernel)
  have hdegree : (residualGrowth plainRules ⟨[counting (.var "n")]⟩ (counting (.var "n"))
      "").degree = 1 := by
    decide +kernel
  have hlogs : (residualGrowth plainRules ⟨[counting (.var "n")]⟩ (counting (.var "n"))
      "").logCount = 0 := by
    decide +kernel
  have hwork :=
    ((growth_work hclass).2 plainRules ⟨[counting (.var "n")]⟩ "f" "" _ _ rfl rfl rfl).1
  refine ⟨by decide +kernel, htotals.degree.trans (by decide +kernel), _, rfl, ?_, ?_⟩
  · exact hwork.degree.trans hdegree
  · exact hwork.logCount.trans hlogs

/-- The class of `2 ^ n` becomes constant work that counts as known, while the
text `2^n` is read as exponential work.  Where a procedure counts up to `2 ^ n`
the residual cost is exponential, and the work is constant again. -/
theorem growth_work_exponential_lost :
    ((Growth.ofPoly ["n"] (Poly.exp 2 (Poly.var "n"))).verbatim = none ∧
        (Growth.ofPoly ["n"] (Poly.exp 2 (Poly.var "n"))).exponentials ≠ [] ∧
        (Work.ofGrowth (Growth.ofPoly ["n"] (Poly.exp 2 (Poly.var "n")))).known = true ∧
        (Work.ofGrowth (Growth.ofPoly ["n"] (Poly.exp 2 (Poly.var "n")))).text = "1" ∧
        (Work.ofGrowth (Growth.ofPoly ["n"] (Poly.exp 2 (Poly.var "n")))).isExponential = false ∧
        (Work.read "2^n").isExponential = true) ∧
      (residualGrowth plainRules ⟨[counting (.binary .pow (.int 2) (.var "n"))]⟩
        (counting (.binary .pow (.int 2) (.var "n"))) "").exponentials ≠ [] ∧
      ∃ d, ofProgram plainRules ⟨[counting (.binary .pow (.int 2) (.var "n"))]⟩ "f" "" = .ok d ∧
        d.text = "T(n) = T(n-1) + 1" ∧ d.residual.worst.growth.text = "2^n" ∧
        d.work.known = true ∧ d.work.isExponential = false := by
  have hclass : (Growth.ofPoly ["n"] (Poly.exp 2 (Poly.var "n"))).verbatim = none :=
    Growth.verbatim_ofPoly _ (by decide +kernel)
  have hexponentials : (residualGrowth plainRules
      ⟨[counting (.binary .pow (.int 2) (.var "n"))]⟩
      (counting (.binary .pow (.int 2) (.var "n"))) "").exponentials.isEmpty = false := by
    decide +kernel
  refine ⟨⟨hclass, List.isEmpty_eq_false_iff.mp (by decide +kernel), by decide +kernel,
      by decide +kernel, Work.isExponential_ofGrowth hclass, by decide +kernel⟩,
    List.isEmpty_eq_false_iff.mp hexponentials, _, rfl, ?_⟩
  decide +kernel

end DerivedRecurrence

end CostAnalysis
