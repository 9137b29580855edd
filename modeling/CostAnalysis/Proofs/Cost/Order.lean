import CostAnalysis.Cost.Report
import CostAnalysis.Proofs.Cost.Attribution
import CostAnalysis.Proofs.Cost.Simulation
import CostAnalysis.Proofs.Source.Operations

/-!
# The best case is not above the average, nor that above the worst case

Nothing in the type of a cost relates its three formulas, but those that are
charged for a program are in order under every reading in which the size of the
input is not negative (`CostReport.best_le_average_le_worst`), in total and at
each statement.

The order alone is not an invariant: a loop with a condition runs longer in the
worst case than on average, and that it costs more then needs that no cost is
negative.  So `Cost.Ordered` says both, and is shown to pass through everything
that costs are combined by: sequences, sums over a range, branches and loops
with a condition.  That no cost is negative holds whatever the size is.

The reading is arbitrary otherwise.  In particular it gives any values to the
indices of the loops around a statement, none of which is the size.
-/

namespace CostAnalysis

/-- Under the reading the cost is not negative, and its cases are in order if
the size is not negative either. -/
structure Cost.Ordered (c : Cost) (I : Reading) : Prop where
  nonneg : ∀ k, 0 ≤ (c.of k).value I
  best_le : c.best.value I ≤ c.average.value I
  le_worst : 0 ≤ I.var "n" → c.average.value I ≤ c.worst.value I

namespace CostCase

variable {p : ℚ}

/-- The cheaper arm costs no more than a mean of arms that cost at least as
much. -/
theorem choose_best_le (hp : 0 ≤ p) (hp' : p ≤ 1) {x x' y y' : ℚ} (hx : x ≤ x') (hy : y ≤ y') :
    CostCase.best.choose p x y ≤ CostCase.average.choose p x' y' := by
  have hq : 0 ≤ 1 - p := sub_nonneg.mpr hp'
  calc min x y = p * min x y + (1 - p) * min x y := by ring
    _ ≤ p * x' + (1 - p) * y' := add_le_add
        (mul_le_mul_of_nonneg_left ((min_le_left x y).trans hx) hp)
        (mul_le_mul_of_nonneg_left ((min_le_right x y).trans hy) hq)

/-- The dearer arm costs no less than a mean of arms that cost at most as
much. -/
theorem choose_le_worst (hp : 0 ≤ p) (hp' : p ≤ 1) {x x' y y' : ℚ} (hx : x ≤ x') (hy : y ≤ y') :
    CostCase.average.choose p x y ≤ CostCase.worst.choose p x' y' := by
  have hq : 0 ≤ 1 - p := sub_nonneg.mpr hp'
  calc p * x + (1 - p) * y ≤ p * max x' y' + (1 - p) * max x' y' := add_le_add
        (mul_le_mul_of_nonneg_left (hx.trans (le_max_left x' y')) hp)
        (mul_le_mul_of_nonneg_left (hy.trans (le_max_right x' y')) hq)
    _ = max x' y' := by ring

end CostCase

namespace Cost.Ordered

variable {c d : Cost} {I : Reading}

/-- Only the values matter. -/
theorem congr (h : d.Ordered I) (hvalue : ∀ k, (c.of k).value I = (d.of k).value I) :
    c.Ordered I := by
  have hbest : c.best.value I = d.best.value I := hvalue .best
  have haverage : c.average.value I = d.average.value I := hvalue .average
  have hworst : c.worst.value I = d.worst.value I := hvalue .worst
  refine ⟨fun k => ?_, ?_, ?_⟩
  · rw [hvalue]
    exact h.nonneg k
  · rw [hbest, haverage]
    exact h.best_le
  · rw [haverage, hworst]
    exact h.le_worst

theorem uniform {e : Formula} (h : 0 ≤ e.value I) : (Cost.uniform e).Ordered I :=
  ⟨fun k => (Cost.of_uniform k e).symm ▸ h, le_rfl, fun _ => le_rfl⟩

theorem zero : Cost.zero.Ordered I :=
  uniform le_rfl

/-- Sums are in order. -/
theorem add (hc : c.Ordered I) (hd : d.Ordered I) : (c.add d).Ordered I := by
  refine ⟨fun k => ?_, ?_, fun hn => ?_⟩
  · rw [Cost.of_add, Formula.value_add]
    exact add_nonneg (hc.nonneg k) (hd.nonneg k)
  · simp only [Cost.add, Formula.value_add]
    exact add_le_add hc.best_le hd.best_le
  · simp only [Cost.add, Formula.value_add]
    exact add_le_add (hc.le_worst hn) (hd.le_worst hn)

theorem sumOver {index : String} (hindex : index ≠ "n") (start stop : Formula)
    (h : ∀ x : ℤ, c.Ordered (I.set index x)) : (c.sumOver index start stop).Ordered I := by
  refine ⟨fun k => ?_, ?_, fun hn => ?_⟩
  · rw [Cost.of_sumOver, Formula.value_sum]
    exact Finset.sum_nonneg fun x _ => (h x).nonneg k
  · simp only [Cost.sumOver, Cost.map, Formula.value_sum]
    exact Finset.sum_le_sum fun x _ => (h x).best_le
  · simp only [Cost.sumOver, Cost.map, Formula.value_sum]
    refine Finset.sum_le_sum fun x _ => (h x).le_worst ?_
    rwa [Reading.set_var, Function.update_of_ne hindex.symm]

/-- A branch pays its guard and one of its arms, or a mean of both. -/
theorem choice {guard : Formula} {p : ℚ} (hp : (1 : Scalar) - .exact p = .exact (1 - p))
    (hp₀ : 0 ≤ p) (hp₁ : p ≤ 1) (hguard : 0 ≤ guard.value I) (hc : c.Ordered I) (hd : d.Ordered I)
    (hc' : ∀ k, k ≠ CostCase.average → (c.of k).IntegralTerms)
    (hd' : ∀ k, k ≠ CostCase.average → (d.of k).IntegralTerms) :
    (Cost.choice guard c d (.exact p)).Ordered I := by
  have hvalue : ∀ k, ((Cost.choice guard c d (.exact p)).of k).value I =
      guard.value I + k.choose p ((c.of k).value I) ((d.of k).value I) := fun k =>
    Cost.value_choice k I hp (hc.nonneg k) (hd.nonneg k) (hc' k) (hd' k)
  refine ⟨fun k => ?_, ?_, fun hn => ?_⟩
  · rw [hvalue]
    exact add_nonneg hguard (CostCase.choose_nonneg hp₀ hp₁ (hc.nonneg k) (hd.nonneg k) k)
  · refine (hvalue .best).trans_le (le_of_le_of_eq ?_ (hvalue .average).symm)
    exact add_le_add_right (CostCase.choose_best_le hp₀ hp₁ hc.best_le hd.best_le) _
  · refine (hvalue .average).trans_le (le_of_le_of_eq ?_ (hvalue .worst).symm)
    exact add_le_add_right (CostCase.choose_le_worst hp₀ hp₁ (hc.le_worst hn) (hd.le_worst hn)) _

/-- A loop with a condition runs not at all in the best case, and at least as
long in the worst case as on average. -/
theorem conditional {guard : Formula} {r : LoopRange} {g : ℚ} (hguard : ∀ J, guard.value J = g)
    (hg : 0 ≤ g) (hindex : r.index ≠ "n")
    (hstop : 0 ≤ I.var "n" → r.averageStop.value I ≤ r.stop.value I)
    (h : ∀ x : ℤ, c.Ordered (I.set r.index x)) : (Stmt.conditionalCost guard r c).Ordered I := by
  -- the guard is evaluated once more than the body
  have hvalue : ∀ body stop : Formula, (Stmt.repeated guard body r.index r.start stop).value I =
      ∑ x ∈ Finset.Icc ⌈r.start.value I⌉ ⌊stop.value I⌋,
        (g + body.value (I.set r.index x)) + g := by
    intro body stop
    rw [Stmt.repeated, Formula.value_add, Formula.value_sum, hguard]
    simp only [Formula.value_add, hguard]
  have hpass : ∀ (k : CostCase) (x : ℤ), 0 ≤ g + (c.of k).value (I.set r.index x) := fun k x =>
    add_nonneg hg ((h x).nonneg k)
  have hsum : ∀ (k : CostCase) (stop : Formula),
      0 ≤ ∑ x ∈ Finset.Icc ⌈r.start.value I⌉ ⌊stop.value I⌋,
        (g + (c.of k).value (I.set r.index x)) := fun k stop =>
    Finset.sum_nonneg fun x _ => hpass k x
  refine ⟨fun k => ?_, ?_, fun hn => ?_⟩
  · cases k with
    | best => exact hg.trans_eq (hguard I).symm
    | average => exact (add_nonneg (hsum .average _) hg).trans_eq (hvalue _ _).symm
    | worst => exact (add_nonneg (hsum .worst _) hg).trans_eq (hvalue _ _).symm
  · simp only [Stmt.conditionalCost, hguard, hvalue]
    exact le_add_of_nonneg_left (hsum .average _)
  · -- each iteration costs no more on average, and the worst case may have more of them
    have hrange : Finset.Icc ⌈r.start.value I⌉ ⌊r.averageStop.value I⌋ ⊆
        Finset.Icc ⌈r.start.value I⌉ ⌊r.stop.value I⌋ :=
      Finset.Icc_subset_Icc_right (Int.floor_le_floor (hstop hn))
    have hsize : ∀ x : ℤ, 0 ≤ (I.set r.index x).var "n" := by
      intro x
      rwa [Reading.set_var, Function.update_of_ne hindex.symm]
    simp only [Stmt.conditionalCost, hvalue]
    refine add_le_add_left ?_ g
    calc ∑ x ∈ Finset.Icc ⌈r.start.value I⌉ ⌊r.averageStop.value I⌋,
          (g + c.average.value (I.set r.index x))
        ≤ ∑ x ∈ Finset.Icc ⌈r.start.value I⌉ ⌊r.averageStop.value I⌋,
          (g + c.worst.value (I.set r.index x)) :=
          Finset.sum_le_sum fun x _ => add_le_add_right ((h x).le_worst (hsize x)) g
      _ ≤ ∑ x ∈ Finset.Icc ⌈r.start.value I⌉ ⌊r.stop.value I⌋,
          (g + c.worst.value (I.set r.index x)) :=
          Finset.sum_le_sum_of_subset_of_nonneg hrange fun x _ _ => hpass .worst x

end Cost.Ordered

/-- The cost is in order under every reading. -/
def Cost.InOrder (c : Cost) : Prop :=
  ∀ I : Reading, c.Ordered I

namespace Stmt

variable {rules : CostRules} {p : ℚ}

/-- A loop with a condition has no more iterations on average than in the worst
case. -/
theorem averageStop_le_stop (hrules : rules.Weighs p) (s : Surroundings) {I : Reading}
    (hn : 0 ≤ I.var "n") :
    (conditionalRange rules s).averageStop.value I ≤ (conditionalRange rules s).stop.value I := by
  -- the end on average is stored only if it differs
  have hstop : ∀ average worst : Formula, average.value I ≤ worst.value I →
      ((if average == worst then none else some average).getD worst).value I ≤ worst.value I := by
    intro average worst hle
    split
    · exact le_rfl
    · exact hle
  rw [conditionalRange]
  cases s.countedIndex? with
  | some index => exact hstop _ _ le_rfl
  | none =>
      refine hstop _ _ ?_
      rw [hrules.value_whileAverage, hrules.value_whileWorst]
      exact half_le_self hn

/-- A statement without blocks costs the same in each case. -/
theorem inOrder_leaf (s : Surroundings) (typeName : String) (l : LineSpan) (n : ℕ)
    (notes : List Note) :
    (leaf s typeName l n notes).1.InOrder ∧
      ∀ e ∈ (leaf s typeName l n notes).2, e.cost.InOrder := by
  have hcost : (Cost.constant (Int.ofNat n)).InOrder := fun I => .uniform (Nat.cast_nonneg n)
  refine ⟨hcost, fun e he => ?_⟩
  cases List.mem_singleton.mp he
  exact hcost

/-- The entries of a statement are that of the statement itself and those of its
blocks. -/
theorem inOrder_entries {n : NodeCost} {cost : Cost} {inner : List NodeCost} (hn : n.cost = cost)
    (hcost : cost.InOrder) (hinner : ∀ e ∈ inner, e.cost.InOrder) :
    cost.InOrder ∧ ∀ e ∈ n :: inner, e.cost.InOrder := by
  refine ⟨hcost, fun e he => ?_⟩
  rcases List.mem_cons.mp he with rfl | he
  · rwa [hn]
  · exact hinner e he

mutual

/-- **The cost of a statement is in order, and so are those of all statements in
it.** -/
theorem inOrder_nodes (hrules : rules.Weighs p) : ∀ (st : Stmt) (s : Surroundings),
    (∀ t ∈ preorder st, Scalar.fits t.operations = true) →
      (nodes rules s st).1.InOrder ∧ ∀ e ∈ (nodes rules s st).2, e.cost.InOrder
  | .assign _ _ _, s, _ => inOrder_leaf s _ _ _ _
  | .declare _ _, s, _ => inOrder_leaf s _ _ _ _
  | .returns _ _, s, _ => inOrder_leaf s _ _ _ _
  | .evaluate _ _, s, _ => inOrder_leaf s _ _ _ _
  | .call _ _ _, s, _ => inOrder_leaf s _ _ _ _
  | .action _ _, s, _ => inOrder_leaf s _ _ _ _
  | .forLoop l var start stop body, s, h => by
      obtain ⟨hbody, hinner⟩ := inOrder_block hrules body
        (s.inside (.loop (rangeOf s var start stop))) fun t ht => h t (by simp [preorder, ht])
      rw [nodes_forLoop_snd]
      refine inOrder_entries rfl (fun I => ?_) hinner
      rw [nodes_forLoop_fst, loopControl_eq_zero hrules]
      exact .add .zero (.sumOver (Surroundings.WellNamed.freshIndex_ne_size s) _ _ fun x => hbody _)
  | .whileLoop l cond body, s, h => by
      obtain ⟨hbody, hinner⟩ := inOrder_block hrules body
        (s.inside (.loop (conditionalRange rules s))) fun t ht => h t (by simp [preorder, ht])
      rw [nodes_whileLoop_snd]
      refine inOrder_entries rfl (fun I => ?_) hinner
      rw [nodes_whileLoop_fst]
      -- the average range of a loop with a condition is part of the worst one
      exact .conditional (fun J => rfl) (Nat.cast_nonneg _)
        (Surroundings.WellNamed.freshIndex_ne_size s) (averageStop_le_stop hrules s)
        fun x => hbody _
  | .branch l cond yes (some no), s, h => by
      have hyesFits : ∀ t ∈ preorderAll yes, Scalar.fits t.operations = true := fun t ht =>
        h t (by simp [preorder, ht])
      have hnoFits : ∀ t ∈ preorderAll no, Scalar.fits t.operations = true := fun t ht =>
        h t (by simp [preorder, ht])
      obtain ⟨hyes, hyesInner⟩ := inOrder_block hrules yes (s.inside .yes) hyesFits
      obtain ⟨hno, hnoInner⟩ := inOrder_block hrules no (s.inside .no) hnoFits
      rw [nodes_branch_some_snd]
      refine inOrder_entries rfl (fun I => ?_) (List.forall_mem_append.mpr
        ⟨hyesInner, hnoInner⟩)
      rw [nodes_branch_some_fst, hrules.probability]
      exact .choice hrules.one_sub hrules.nonneg hrules.le_one (Nat.cast_nonneg _) (hyes I)
        (hno I) (fun k hk => integralTerms_blockCost hrules hk _ hyesFits)
        (fun k hk => integralTerms_blockCost hrules hk _ hnoFits)
  | .branch l cond yes none, s, h => by
      have hyesFits : ∀ t ∈ preorderAll yes, Scalar.fits t.operations = true := fun t ht =>
        h t (by simp [preorder, ht])
      obtain ⟨hyes, hyesInner⟩ := inOrder_block hrules yes (s.inside .yes) hyesFits
      rw [nodes_branch_none_snd]
      refine inOrder_entries rfl (fun I => ?_) hyesInner
      rw [nodes_branch_none_fst, hrules.probability]
      exact .choice hrules.one_sub hrules.nonneg hrules.le_one (Nat.cast_nonneg _) (hyes I)
        .zero (fun k hk => integralTerms_blockCost hrules hk _ hyesFits)
        (fun k _ => (Cost.of_zero k).symm ▸ .zero)
termination_by structural st => st

/-- The same for a block, with its entries. -/
theorem inOrder_block (hrules : rules.Weighs p) : ∀ (sts : List Stmt) (s : Surroundings),
    (∀ t ∈ preorderAll sts, Scalar.fits t.operations = true) →
      (blockCost rules s sts).InOrder ∧ ∀ e ∈ entries rules s sts, e.cost.InOrder
  | [], s, _ => ⟨fun I => .zero, fun e he => nomatch he⟩
  | st :: sts, s, h => by
      obtain ⟨hst, hstEntries⟩ := inOrder_nodes hrules st s fun t ht =>
        h t (by simp [preorderAll, ht])
      obtain ⟨hsts, hstsEntries⟩ := inOrder_block hrules sts s fun t ht =>
        h t (by simp [preorderAll, ht])
      rw [entries_cons]
      refine ⟨fun I => ?_, List.forall_mem_append.mpr ⟨hstEntries, hstsEntries⟩⟩
      refine ((hst I).add (hsts I)).congr fun k => ?_
      rw [value_blockCost_cons, Cost.of_add, Formula.value_add]
termination_by structural sts => sts

end

end Stmt

/-! ## Programs

A procedure is a block at the outermost place, and a program adds up its
procedures.  That no operations of a statement outgrow their word follows from
the length of the text. -/

namespace Program

variable {rules : CostRules} {p : Program} {q : ℚ}

/-- A program adds up its procedures. -/
theorem inOrder_nodes (hrules : rules.Weighs q)
    (hp : ∀ f ∈ p.functions, ∀ st ∈ Stmt.preorderAll f.body, Scalar.fits st.operations = true) :
    (p.nodes rules).1.InOrder ∧ ∀ e ∈ (p.nodes rules).2, e.cost.InOrder := by
  refine nodes_induction
    (P := fun total entries => total.InOrder ∧ ∀ e ∈ entries, e.cost.InOrder)
    ⟨fun I => .zero, by simp⟩ ?_
  rintro f hf total entries ⟨htotal, hentries⟩
  obtain ⟨hbody, hinner⟩ := Stmt.inOrder_block hrules f.body _ (hp f hf)
  exact ⟨fun I => (htotal I).add (hbody I),
    List.forall_mem_append.mpr ⟨hentries, hinner⟩⟩

/-- The operations of a statement of a text of less than `2 ^ 63` characters fit
their word. -/
theorem fits_operations_of_parse {source : String} (hp : Program.parse source = .ok p)
    (hsize : source.length < 2 ^ 63) :
    ∀ f ∈ p.functions, ∀ st ∈ Stmt.preorderAll f.body, Scalar.fits st.operations = true := by
  intro f hf st hst
  have hle := operations_le_of_parse hp f hf st hst
  have hword : (2 : ℕ) ^ 63 < 2 ^ 127 := by norm_num
  rw [Scalar.fits_iff]
  omega

end Program

namespace CostReport

/-- **The best case is not above the average, nor that above the worst case**,
for a program that was read from a text in memory, in total and at each of its
statements.  The rules charge no loop control, and the size of the input is not
negative; all other values are arbitrary, those of the indices of the loops
around a statement among them. -/
theorem best_le_average_le_worst {source : String} {p : Program}
    (hp : Program.parse source = .ok p) (hsize : source.length < 2 ^ 63) {rules : CostRules} {q : ℚ}
    (hrules : rules.Weighs q) (text : String) (I : Reading) (hn : 0 ≤ I.var "n") :
    ((ofProgram rules p text).total.best.value I ≤ (ofProgram rules p text).total.average.value I ∧
      (ofProgram rules p text).total.average.value I ≤
        (ofProgram rules p text).total.worst.value I) ∧
    ∀ e ∈ (ofProgram rules p text).nodes,
      e.cost.best.value I ≤ e.cost.average.value I ∧
        e.cost.average.value I ≤ e.cost.worst.value I := by
  obtain ⟨htotal, hnodes⟩ := Program.inOrder_nodes hrules
    (Program.fits_operations_of_parse hp hsize)
  exact ⟨⟨(htotal I).best_le, (htotal I).le_worst hn⟩,
    fun e he => ⟨(hnodes e he I).best_le, (hnodes e he I).le_worst hn⟩⟩

/-- At the size `3` every entry of `nestedSource` is in order. -/
theorem best_le_average_le_worst_nestedSource :
    ∃ p, Program.parse nestedSource = .ok p ∧ nestedSource.length < 2 ^ 63 ∧
      Function.evenRules.Weighs (1 / 2) ∧ 0 ≤ (Formula.sizedReading 3).var "n" ∧
      ((ofProgram Function.evenRules p nestedSource).nodes.map NodeCost.typeName =
        ["While", "For", "If", "Assign", "Assign"]) ∧
      ∀ e ∈ (ofProgram Function.evenRules p nestedSource).nodes,
        e.cost.best.value (Formula.sizedReading 3) ≤ e.cost.average.value (Formula.sizedReading 3) ∧
          e.cost.average.value (Formula.sizedReading 3) ≤
            e.cost.worst.value (Formula.sizedReading 3) := by
  have hkinds : (Program.parse nestedSource).toOption.map (fun p =>
      (ofProgram Function.evenRules p nestedSource).nodes.map NodeCost.typeName) =
      some ["While", "For", "If", "Assign", "Assign"] := by
    decide +kernel
  have hsize : nestedSource.length < 2 ^ 63 := by decide +kernel
  have hn : 0 ≤ (Formula.sizedReading 3).var "n" := by decide
  cases hparse : Program.parse nestedSource with
  | error e =>
      rw [hparse] at hkinds
      cases hkinds
  | ok p =>
      rw [hparse] at hkinds
      refine ⟨p, rfl, hsize, Function.evenRules_weighs, hn, Option.some.inj hkinds, ?_⟩
      exact (best_le_average_le_worst hparse hsize Function.evenRules_weighs nestedSource _ hn).2

end CostReport

end CostAnalysis
