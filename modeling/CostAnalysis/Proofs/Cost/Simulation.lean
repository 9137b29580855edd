import CostAnalysis.Proofs.Cost.Expected
import CostAnalysis.Proofs.Cost.Indices

/-!
# Charged costs are the expected ones

The cost that is charged for a procedure is a formula in which every loop is a
summation over an index of its own.  Under every reading its value is the
expected cost of the procedure (`Function.value_nodes`).

**The simulation.**  A place inside loops has two descriptions: the values of
the variables that the expected cost speaks of, and a reading that gives values
to the indices.  `Surroundings.Simulates` says that they belong together, and
there is one lemma for each way in which a place can be entered: the arm of a
branch, a counting loop and a loop with a condition.  The theorem then follows
by induction over statements and blocks.

**Conditions.**  Bounds are arithmetic, their formulas contain no mark of an
overflow, a loop variable occurs in bounds only inside a loop over it, no name
in use is that of a numbered index, and the number of operations of a single
statement fits its counter.
-/

namespace CostAnalysis

/-! ## Costs by cases

The best, the average and the worst case of a branch are a minimum, a weighted
mean and a maximum.  The first and the last of them are read off their values as
soon as these are integers of their words, which is why `IntegralTerms` goes
along with every value from here on. -/

namespace Cost

variable (k : CostCase)

/-- The value of a branch in a case. -/
theorem value_choice (I : Reading) {guard : Formula} {yes no : Cost} {p : ℚ}
    (hp : (1 : Scalar) - .exact p = .exact (1 - p))
    (hyes : 0 ≤ (yes.of k).value I) (hno : 0 ≤ (no.of k).value I)
    (hyes' : k ≠ .average → (yes.of k).IntegralTerms)
    (hno' : k ≠ .average → (no.of k).IntegralTerms) :
    ((choice guard yes no (.exact p)).of k).value I =
      guard.value I + k.choose p ((yes.of k).value I) ((no.of k).value I) := by
  cases k with
  | best =>
      show (guard.add ((yes.of .best).min (no.of .best))).value I = _
      rw [Formula.value_add,
        Formula.value_min I hyes hno (hyes' (by decide)) (hno' (by decide))]
      rfl
  | average =>
      show ((guard.add (yes.average.scale (.exact p))).add
        (no.average.scale (1 - .exact p))).value I = _
      rw [hp, Formula.value_add, Formula.value_add, Formula.value_scale, Formula.value_scale,
        add_assoc]
      rfl
  | worst =>
      show (guard.add ((yes.of .worst).max (no.of .worst))).value I = _
      rw [Formula.value_add,
        Formula.value_max I hyes hno (hyes' (by decide)) (hno' (by decide))]
      rfl

/-- But for the average, where a probability comes in, a choice of integral
costs is integral. -/
theorem integralTerms_choice {k : CostCase} (hk : k ≠ .average) {guard : Formula} {yes no : Cost}
    (probability : Scalar) (hguard : guard.IntegralTerms) (hyes : (yes.of k).IntegralTerms)
    (hno : (no.of k).IntegralTerms) :
    ((choice guard yes no probability).of k).IntegralTerms := by
  cases k with
  | best => exact hguard.add (hyes.min hno)
  | average => exact absurd rfl hk
  | worst => exact hguard.add (hyes.max hno)

end Cost

/-- The value of a loop with a condition in a case, where the body does not
depend on the index. -/
theorem Stmt.value_conditionalCost (k : CostCase) (I : Reading) {guard : Formula} {r : LoopRange}
    {body : Cost} {g b : ℚ} (hstart : r.start = Formula.one) (hguard : ∀ J, guard.value J = g)
    (hbody : ∀ x : ℤ, (body.of k).value (I.set r.index x) = b) :
    ((Stmt.conditionalCost guard r body).of k).value I =
      k.repeated ((r.stopOf k).value I) g b := by
  have hone : ⌈Formula.one.value I⌉ = 1 := Int.ceil_one
  have hrepeated : ∀ stop : Formula,
      (Stmt.repeated guard (body.of k) r.index r.start stop).value I =
        (∑ _x ∈ Finset.Icc 1 ⌊stop.value I⌋, (g + b)) + g := by
    intro stop
    rw [Stmt.repeated, Formula.value_add, Formula.value_sum, hstart, hone, hguard]
    congr 1
    refine Finset.sum_congr rfl fun x _ => ?_
    rw [Formula.value_add, hguard, hbody]
  cases k with
  | best => exact hguard I
  | average => exact hrepeated _
  | worst => exact hrepeated _

theorem Stmt.integralTerms_conditionalCost {k : CostCase} (hk : k ≠ .average) {guard : Formula}
    (hguard : guard.IntegralTerms) (r : LoopRange) (body : Cost) :
    ((Stmt.conditionalCost guard r body).of k).IntegralTerms := by
  have hrepeated := (Formula.IntegralTerms.sum (guard.add body.worst) r.start r.stop r.index).add
    hguard
  cases k with
  | best => exact hguard
  | average => exact absurd rfl hk
  | worst => exact hrepeated

/-! ## Conditions

What is asked of the rules, of bounds and of the names in a procedure.  Each of
these conditions is read off the syntax or the rules; none of them speaks of a
cost that was computed. -/

/-- Rules that do not charge the control of loops, weigh branches by a
probability `p` whose parts fit their words, and take the size of the input, or
half of it on average, where nothing else bounds a loop. -/
structure CostRules.Weighs (rules : CostRules) (p : ℚ) : Prop where
  countLoopControl : rules.countLoopControl = false
  probability : rules.probability = .exact p
  fits : (Scalar.exact p).Fits
  nonneg : 0 ≤ p
  le_one : p ≤ 1
  whileAverage : Formula.read? "n/2" = some rules.whileAverage
  whileWorst : Formula.read? "n" = some rules.whileWorst

namespace CostRules.Weighs

variable {rules : CostRules} {p : ℚ}

/-- The weight of the other arm is exact as well. -/
theorem one_sub (h : rules.Weighs p) : (1 : Scalar) - .exact p = .exact (1 - p) := by
  obtain ⟨q, hq, hnum, hden⟩ := h.fits
  cases hq
  have hneg : -Scalar.exact p = .exact (-p) := if_pos hnum
  have hsign : 0 ≤ p.num := Rat.num_nonneg.mpr h.nonneg
  -- the difference is formed over the denominator of `p`, and lies between zero
  -- and that
  have hle : p.num ≤ p.den := by
    have hcast : (p.num : ℚ) ≤ p.den := by
      rw [← Rat.mul_den_eq_num]
      exact mul_le_of_le_one_left (Nat.cast_nonneg _) h.le_one
    exact_mod_cast hcast
  have hdiff : Scalar.fits (p.den + -p.num) = true := by
    rw [Scalar.fits_iff] at hden ⊢
    omega
  have hadd : Scalar.add? (.exact 1) (.exact (-p)) = some (.exact (1 + -p)) := by
    simp [Scalar.add?_exact, hden, hdiff, Nat.div_self p.den_pos, Scalar.fitsSigned_of_fits hden,
      Scalar.fitsSigned_of_fits (Scalar.fits_neg hnum)]
  show 1 + -Scalar.exact p = _
  rw [hneg]
  show (Scalar.add? (.exact 1) (.exact (-p))).getD .overflow = _
  rw [hadd, ← sub_eq_add_neg]
  rfl

/-- On average it runs for half of the size of the input. -/
theorem value_whileAverage (h : rules.Weighs p) (I : Reading) :
    rules.whileAverage.value I = I.var "n" / 2 := by
  have hread : Formula.read? "n/2" = some (.over (.var "n") (.num 2)) := by rfl
  rw [Option.some.inj (h.whileAverage.symm.trans hread)]
  rfl

theorem value_whileWorst (h : rules.Weighs p) (I : Reading) :
    rules.whileWorst.value I = I.var "n" := by
  have hread : Formula.read? "n" = some (.var "n") := by rfl
  rw [Option.some.inj (h.whileWorst.symm.trans hread)]
  rfl

end CostRules.Weighs

namespace Stmt

/-- The bounds of a counting loop. -/
def bounds : Stmt → List Expr
  | .forLoop _ _ start stop _ => [start, stop]
  | _ => []

mutual

/-- Those of the given variables that occur in the bounds of a loop are
variables of loops around it. -/
def BoundsInScope (vars : List String) : Stmt → List String → Prop
  | .forLoop _ var start stop body, around =>
    (∀ e ∈ [start, stop], ∀ x ∈ e.names, x ∈ vars → x ∈ around) ∧
      AllBoundsInScope vars body (var :: around)
  | .whileLoop _ _ body, around => AllBoundsInScope vars body around
  | .branch _ _ yes (some no), around =>
    AllBoundsInScope vars yes around ∧ AllBoundsInScope vars no around
  | .branch _ _ yes none, around => AllBoundsInScope vars yes around
  | _, _ => True
termination_by structural st => st

/-- The same for a block. -/
def AllBoundsInScope (vars : List String) : List Stmt → List String → Prop
  | [], _ => True
  | st :: sts, around => BoundsInScope vars st around ∧ AllBoundsInScope vars sts around
termination_by structural sts => sts

end

end Stmt

/-- No bound of the range has the mark of an overflow in it. -/
def NodeCost.Unmarked (n : NodeCost) : Prop :=
  ∀ r ∈ n.range?, r.start.hasOverflow = false ∧ r.stop.hasOverflow = false

/-! ## Places in loops

A variable of the source and the index that stands for it are two things: the
index is chosen by the depth of its loop, and an inner loop over the same
variable hides the outer one.  `Surroundings.Simulates` is the bridge, and each
lemma below says that one way of going inwards keeps it. -/

/-- The place `s` inside loops over the variables `around`, the innermost of
which runs over `loop?`, as the reading `I` describes it, is the one where the
variables have the values `σ`. -/
structure Surroundings.Simulates (s : Surroundings) (around : List String) (loop? : Option String)
    (σ : String → ℚ) (I : Reading) : Prop where
  named : s.WellNamed
  range : ∀ x ∈ around, ∃ r ∈ s.ranges, r.sourceVar? = some x
  value : ∀ x, x ∈ s.reserved ∨ x ∈ around → I.var (s.rename x) = σ x
  counted : s.countedIndex? = loop?.map s.rename
  loop : ∀ x ∈ loop?, x ∈ around
  size : loop? = none → I.var "n" = σ "n"

namespace Surroundings.Simulates

variable {s : Surroundings} {around : List String} {loop? : Option String} {σ : String → ℚ}
  {I : Reading}

/-- Outside all loops the reading gives the variables their values. -/
theorem outermost {reserved : List String} (h : ∀ depth, numberedIndex depth ∉ reserved)
    (I : Reading) : Simulates { reserved } [] none I.var I where
  named := ⟨h, by simp [ranges]⟩
  range := by simp
  value := fun x _ => rfl
  counted := rfl
  loop := by simp
  size := fun _ => rfl

theorem inside_yes (h : s.Simulates around loop? σ I) :
    (s.inside .yes).Simulates around loop? σ I :=
  ⟨⟨h.named.reserved, h.named.index⟩, h.range, h.value, h.counted, h.loop, h.size⟩

theorem inside_no (h : s.Simulates around loop? σ I) :
    (s.inside .no).Simulates around loop? σ I :=
  ⟨⟨h.named.reserved, h.named.index⟩, h.range, h.value, h.counted, h.loop, h.size⟩

/-- A value for a fresh index changes no variable. -/
theorem value_set (h : s.Simulates around loop? σ I) {x : String}
    (hx : x ∈ s.reserved ∨ x ∈ around) (value : ℚ) :
    (I.set s.freshIndex value).var (s.rename x) = σ x := by
  have hne : s.rename x ≠ s.freshIndex :=
    h.named.rename_ne_freshIndex (hx.imp_right (h.range x))
  rw [Reading.set_var, Function.update_of_ne hne]
  exact h.value x hx

/-- Entering a counting loop sets its variable. -/
theorem inside_counted (h : s.Simulates around loop? σ I) {r : LoopRange} {var : String}
    (hindex : r.index = s.freshIndex) (hvar : r.sourceVar? = some var) (hkind : r.kind = .counted)
    (value : ℚ) :
    (s.inside (.loop r)).Simulates (var :: around) (some var) (Function.update σ var value)
      (I.set r.index value) where
  named := h.named.inside_loop hindex
  range := by
    intro x hx
    rcases List.mem_cons.mp hx with rfl | hx
    · exact ⟨r, List.mem_cons_self, hvar⟩
    · obtain ⟨q, hq, hqx⟩ := h.range x hx
      exact ⟨q, List.mem_cons_of_mem _ hq, hqx⟩
  value := by
    intro x hx
    rw [rename_inside_loop, hvar]
    -- the variable of the loop hides all of its name; the others are as outside
    by_cases hxvar : x = var
    · rw [if_pos (congrArg some hxvar.symm), hxvar, Reading.set_var, Function.update_self,
        Function.update_self]
    · have hx' : x ∈ s.reserved ∨ x ∈ around :=
        hx.imp_right fun hx => (List.mem_cons.mp hx).resolve_left hxvar
      rw [if_neg (fun heq => hxvar (Option.some.inj heq).symm), Function.update_of_ne hxvar, hindex]
      exact h.value_set hx' value
  counted := by
    rw [countedIndex?_inside_loop, if_pos hkind, Option.map_some, rename_inside_loop, if_pos hvar]
  loop := by simp
  size := by simp

/-- Entering a loop with a condition changes no variable. -/
theorem inside_conditional (h : s.Simulates around loop? σ I) {r : LoopRange}
    (hindex : r.index = s.freshIndex) (hvar : r.sourceVar? = none) (hkind : r.kind = .conditional)
    (value : ℚ) :
    (s.inside (.loop r)).Simulates around loop? σ (I.set r.index value) := by
  have hrename : (s.inside (.loop r)).rename = s.rename := by
    funext x
    rw [rename_inside_loop, hvar, if_neg (by simp)]
  refine ⟨h.named.inside_loop hindex, ?_, ?_, ?_, h.loop, ?_⟩
  · intro x hx
    obtain ⟨q, hq, hqx⟩ := h.range x hx
    exact ⟨q, List.mem_cons_of_mem _ hq, hqx⟩
  · intro x hx
    rw [hrename, hindex]
    exact h.value_set hx value
  · rw [countedIndex?_inside_loop, hkind, if_neg (by decide), hrename]
    exact h.counted
  · intro hnone
    rw [hindex, Reading.set_var, Function.update_of_ne (WellNamed.freshIndex_ne_size s).symm]
    exact h.size hnone

/-- The formula of an arithmetic bound has the value of the bound. -/
theorem value_bound (h : s.Simulates around loop? σ I) {e : Expr} (he : e.Arithmetic)
    (hnames : ∀ x ∈ e.names, x ∈ s.reserved ∨ x ∈ around)
    (hmark : (Stmt.bound s e).1.hasOverflow = false) :
    (Stmt.bound s e).1.value I = e.value σ := by
  have hrenamed : ∀ x ∈ e.names, I.var (s.rename x) = σ x := fun x hx => h.value x (hnames x hx)
  obtain ⟨F, hF, -, hvalue⟩ := he.value_formula? hrenamed
  rw [Stmt.bound, hF] at hmark ⊢
  exact hvalue hmark

/-- A loop with a condition runs as often as it is expected to. -/
theorem value_stopOf (h : s.Simulates around loop? σ I) {rules : CostRules} {p : ℚ}
    (hrules : rules.Weighs p) (k : CostCase) :
    ((Stmt.conditionalRange rules s).stopOf k).value I = k.iterations σ loop? := by
  -- the end on average is stored only if it differs, which makes no difference
  -- to its value
  have hstop : ∀ average worst : Formula,
      ((if average == worst then none else some average).getD worst).value I = average.value I := by
    intro average worst
    split
    · next hsame => rw [Formula.eq_of_beq average worst hsame, Option.getD_none]
    · rfl
  cases loop? with
  | some var =>
      have hvar : I.var (s.rename var) = σ var := h.value var (Or.inr (h.loop var rfl))
      have hcounted : s.countedIndex? = some (s.rename var) := h.counted
      have hvalue : (Formula.var (s.rename var)).value I = σ var := hvar
      cases k with
      | average =>
          simp only [LoopRange.stopOf, LoopRange.averageStop, Stmt.conditionalRange, hcounted,
            hstop, hvalue]
          rfl
      | _ =>
          simp only [LoopRange.stopOf, Stmt.conditionalRange, hcounted, hvalue]
          rfl
  | none =>
      have hcounted : s.countedIndex? = none := h.counted
      cases k with
      | average =>
          simp only [LoopRange.stopOf, LoopRange.averageStop, Stmt.conditionalRange, hcounted,
            hstop, hrules.value_whileAverage, h.size rfl]
          rfl
      | _ =>
          simp only [LoopRange.stopOf, Stmt.conditionalRange, hcounted, hrules.value_whileWorst,
            h.size rfl]
          rfl

end Surroundings.Simulates

/-! ## The simulation

The induction is over statements and blocks at once, at every place and for
every reading, since a body is summed over the values of an index that its own
loop has brought in. -/

namespace Stmt

variable {rules : CostRules} {p : ℚ}

/-- A statement is among those that are listed for it. -/
theorem self_mem_preorder (st : Stmt) : st ∈ preorder st := by
  cases st with
  | branch l cond yes no => cases no <;> exact List.mem_cons_self
  | _ => exact List.mem_cons_self

/-- The control of loops is free. -/
theorem loopControl_eq_zero (hrules : rules.Weighs p) (r : LoopRange) :
    loopControl rules r = Cost.zero := by
  rw [loopControl, hrules.countLoopControl]
  rfl

mutual

/-- In the best and the worst case the numbers in the cost of a statement are
integers, as long as those of its own operations are. -/
theorem integralTerms_nodes (hrules : rules.Weighs p) {k : CostCase} (hk : k ≠ .average) :
    ∀ (st : Stmt) (s : Surroundings), (∀ t ∈ preorder st, Scalar.fits t.operations = true) →
      ((nodes rules s st).1.of k).IntegralTerms
  | .assign l target value, s, h => by
      rw [nodes, of_leaf]
      exact Formula.IntegralTerms.int (h _ (self_mem_preorder _))
  | .declare l names, s, h => by
      rw [nodes, of_leaf]
      exact Formula.IntegralTerms.int (h _ (self_mem_preorder _))
  | .returns l value, s, h => by
      rw [nodes, of_leaf]
      exact Formula.IntegralTerms.int (h _ (self_mem_preorder _))
  | .evaluate l e, s, h => by
      rw [nodes, of_leaf]
      exact Formula.IntegralTerms.int (h _ (self_mem_preorder _))
  | .call l name args, s, h => by
      rw [nodes, of_leaf, Expr.operationsAll_eq_sum]
      exact Formula.IntegralTerms.int (h _ (self_mem_preorder _))
  | .action l text, s, h => by
      rw [nodes, of_leaf]
      exact Formula.IntegralTerms.int (h _ (self_mem_preorder _))
  | .forLoop l var start stop body, s, h => by
      rw [nodes_forLoop_fst, loopControl_eq_zero hrules, Cost.of_add, Cost.of_zero, Cost.of_sumOver]
      -- a summation is no number, so nothing is asked of the body
      exact Formula.IntegralTerms.zero.add (.sum _ _ _ _)
  | .whileLoop l cond body, s, h => by
      have hguard : (Formula.int (Int.ofNat cond.operations)).IntegralTerms :=
        .int (h _ (self_mem_preorder _))
      rw [nodes_whileLoop_fst]
      exact integralTerms_conditionalCost hk hguard _ _
  | .branch l cond yes (some no), s, h => by
      have hguard : (Formula.int (Int.ofNat cond.operations)).IntegralTerms :=
        .int (h _ (self_mem_preorder _))
      have hzero : (Cost.zero.of k).IntegralTerms := (Cost.of_zero k).symm ▸ .zero
      have hyes := integralTerms_blockNodes hrules hk yes (s.inside .yes) Cost.zero hzero
        fun t ht => h t (by simp [preorder, ht])
      have hno := integralTerms_blockNodes hrules hk no (s.inside .no) Cost.zero hzero
        fun t ht => h t (by simp [preorder, ht])
      rw [nodes_branch_some_fst]
      exact Cost.integralTerms_choice hk _ hguard hyes hno
  | .branch l cond yes none, s, h => by
      have hguard : (Formula.int (Int.ofNat cond.operations)).IntegralTerms :=
        .int (h _ (self_mem_preorder _))
      have hzero : (Cost.zero.of k).IntegralTerms := (Cost.of_zero k).symm ▸ .zero
      have hyes := integralTerms_blockNodes hrules hk yes (s.inside .yes) Cost.zero hzero
        fun t ht => h t (by simp [preorder, ht])
      rw [nodes_branch_none_fst]
      exact Cost.integralTerms_choice hk _ hguard hyes hzero
termination_by structural st => st

/-- The costs of a block are integral, if what came before it is. -/
theorem integralTerms_blockNodes (hrules : rules.Weighs p) {k : CostCase} (hk : k ≠ .average) :
    ∀ (sts : List Stmt) (s : Surroundings) (acc : Cost), (acc.of k).IntegralTerms →
      (∀ t ∈ preorderAll sts, Scalar.fits t.operations = true) →
      ((blockNodes rules s acc sts).1.of k).IntegralTerms
  | [], s, acc, hacc, _ => hacc
  | st :: sts, s, acc, hacc, h => by
      have hst := integralTerms_nodes hrules hk st s fun t ht => h t (by simp [preorderAll, ht])
      rw [blockNodes_cons_fst]
      refine integralTerms_blockNodes hrules hk sts s _ ?_ fun t ht =>
        h t (by simp [preorderAll, ht])
      rw [Cost.of_add]
      exact hacc.add hst
termination_by structural sts => sts

end

theorem integralTerms_blockCost (hrules : rules.Weighs p) {k : CostCase} (hk : k ≠ .average)
    (s : Surroundings) {sts : Block} (h : ∀ t ∈ preorderAll sts, Scalar.fits t.operations = true) :
    ((blockCost rules s sts).of k).IntegralTerms :=
  integralTerms_blockNodes hrules hk sts s Cost.zero ((Cost.of_zero k).symm ▸ .zero) h

/-- What is asked of each statement by itself, where `vars` are the variables of
the loops and `reserved` the names in use. -/
structure Plain (vars reserved : List String) (st : Stmt) : Prop where
  operations : Scalar.fits st.operations = true
  arithmetic : ∀ e ∈ st.bounds, e.Arithmetic
  names : ∀ e ∈ st.bounds, ∀ x ∈ e.names, x ∉ vars → x ∈ reserved

mutual

/-- **One statement is charged what it is expected to cost.** -/
theorem value_nodes (hrules : rules.Weighs p) (k : CostCase) (vars : List String) :
    ∀ (st : Stmt) {s : Surroundings} {around : List String} {loop? : Option String}
      {σ : String → ℚ} {I : Reading}, s.Simulates around loop? σ I →
      (∀ t ∈ preorder st, t.Plain vars s.reserved) → st.BoundsInScope vars around →
      (∀ n ∈ (nodes rules s st).2, n.Unmarked) →
      ((nodes rules s st).1.of k).value I = st.expected k p loop? σ
  | .assign l target value, s, around, loop?, σ, I, hsim, hplain, hscope, hmarks => by
      rw [nodes, of_leaf]
      rfl
  | .declare l names, s, around, loop?, σ, I, hsim, hplain, hscope, hmarks => by
      rw [nodes, of_leaf]
      rfl
  | .returns l value, s, around, loop?, σ, I, hsim, hplain, hscope, hmarks => by
      rw [nodes, of_leaf]
      rfl
  | .evaluate l e, s, around, loop?, σ, I, hsim, hplain, hscope, hmarks => by
      rw [nodes, of_leaf]
      rfl
  | .call l name args, s, around, loop?, σ, I, hsim, hplain, hscope, hmarks => by
      rw [nodes, of_leaf, Expr.operationsAll_eq_sum]
      rfl
  | .action l text, s, around, loop?, σ, I, hsim, hplain, hscope, hmarks => by
      rw [nodes, of_leaf]
      rfl
  | .forLoop l var start stop body, s, around, loop?, σ, I, hsim, hplain, hscope, hmarks => by
      obtain ⟨-, harithmetic, hreserved⟩ := hplain _ (self_mem_preorder _)
      rw [nodes_forLoop_snd] at hmarks
      obtain ⟨hstart, hstop⟩ := hmarks _ List.mem_cons_self _ rfl
      -- a name in a bound is that of a loop around, or no loop variable and
      -- then reserved
      have hnames : ∀ e ∈ [start, stop], ∀ x ∈ e.names, x ∈ s.reserved ∨ x ∈ around := by
        intro e he x hx
        by_cases hvar : x ∈ vars
        · exact Or.inr (hscope.1 e he x hx hvar)
        · exact Or.inl (hreserved e he x hx hvar)
      have hvalue : ∀ e ∈ [start, stop], (bound s e).1.hasOverflow = false →
          (bound s e).1.value I = e.value σ :=
        fun e he => hsim.value_bound (harithmetic e he) (hnames e he)
      rw [nodes_forLoop_fst, loopControl_eq_zero hrules, Cost.of_add, Cost.of_zero,
        Cost.of_sumOver, Formula.value_add, Formula.value_sum, expected]
      rw [show (rangeOf s var start stop).start.value I = start.value σ from
          hvalue start (by simp) hstart,
        show (rangeOf s var start stop).stop.value I = stop.value σ from
          hvalue stop (by simp) hstop]
      -- each summand is the body at a place with one more loop around it
      have hbody : ∀ x : ℤ,
          ((blockCost rules (s.inside (.loop (rangeOf s var start stop))) body).of k).value
            (I.set (rangeOf s var start stop).index x) =
          expectedAll k p body (some var) (Function.update σ var x) :=
        fun x => value_blockCost hrules k vars body (hsim.inside_counted rfl rfl rfl x)
          (fun t ht => hplain t (by simp [preorder, ht])) hscope.2
          (fun n hn => hmarks n (List.mem_cons_of_mem _ hn))
      rw [Finset.sum_congr rfl fun x _ => hbody x]
      exact zero_add _
  | .whileLoop l cond body, s, around, loop?, σ, I, hsim, hplain, hscope, hmarks => by
      rw [nodes_whileLoop_snd] at hmarks
      -- the index of the sum is not mentioned in the body, so all summands
      -- agree
      have hbody : ∀ x : ℤ,
          ((blockCost rules (s.inside (.loop (conditionalRange rules s))) body).of k).value
            (I.set (conditionalRange rules s).index x) = expectedAll k p body loop? σ :=
        fun x => value_blockCost hrules k vars body (hsim.inside_conditional rfl rfl rfl x)
          (fun t ht => hplain t (by simp [preorder, ht])) hscope
          (fun n hn => hmarks n (List.mem_cons_of_mem _ hn))
      rw [nodes_whileLoop_fst, value_conditionalCost k I rfl (fun _ => rfl) hbody,
        hsim.value_stopOf hrules, expected]
      rfl
  | .branch l cond yes (some no), s, around, loop?, σ, I, hsim, hplain, hscope, hmarks => by
      rw [nodes_branch_some_snd] at hmarks
      have hyes := value_blockCost hrules k vars yes hsim.inside_yes
        (fun t ht => hplain t (by simp [preorder, ht])) hscope.1
        (fun n hn => hmarks n (by simp [hn]))
      have hno := value_blockCost hrules k vars no hsim.inside_no
        (fun t ht => hplain t (by simp [preorder, ht])) hscope.2
        (fun n hn => hmarks n (by simp [hn]))
      rw [nodes_branch_some_fst, hrules.probability, Cost.value_choice k I hrules.one_sub, hyes,
        hno, expected]
      · rfl
      · rw [hyes]
        exact expectedAll_nonneg k hrules.nonneg hrules.le_one yes loop? σ
      · rw [hno]
        exact expectedAll_nonneg k hrules.nonneg hrules.le_one no loop? σ
      · exact fun hk => integralTerms_blockCost hrules hk _
          fun t ht => (hplain t (by simp [preorder, ht])).operations
      · exact fun hk => integralTerms_blockCost hrules hk _
          fun t ht => (hplain t (by simp [preorder, ht])).operations
  | .branch l cond yes none, s, around, loop?, σ, I, hsim, hplain, hscope, hmarks => by
      rw [nodes_branch_none_snd] at hmarks
      have hyes := value_blockCost hrules k vars yes hsim.inside_yes
        (fun t ht => hplain t (by simp [preorder, ht])) hscope
        (fun n hn => hmarks n (by simp [hn]))
      have hno : (Cost.zero.of k).value I = 0 := by
        rw [Cost.of_zero]
        rfl
      rw [nodes_branch_none_fst, hrules.probability, Cost.value_choice k I hrules.one_sub, hyes,
        hno, expected]
      · rfl
      · rw [hyes]
        exact expectedAll_nonneg k hrules.nonneg hrules.le_one yes loop? σ
      · exact hno.ge
      · exact fun hk => integralTerms_blockCost hrules hk _
          fun t ht => (hplain t (by simp [preorder, ht])).operations
      · exact fun _ => (Cost.of_zero k).symm ▸ .zero
termination_by structural st => st

/-- A block is charged what it is expected to cost. -/
theorem value_blockCost (hrules : rules.Weighs p) (k : CostCase) (vars : List String) :
    ∀ (sts : List Stmt) {s : Surroundings} {around : List String} {loop? : Option String}
      {σ : String → ℚ} {I : Reading}, s.Simulates around loop? σ I →
      (∀ t ∈ preorderAll sts, t.Plain vars s.reserved) → AllBoundsInScope vars sts around →
      (∀ n ∈ entries rules s sts, n.Unmarked) →
      ((blockCost rules s sts).of k).value I = expectedAll k p sts loop? σ
  | [], s, around, loop?, σ, I, hsim, hplain, hscope, hmarks => value_blockCost_nil rules s k I
  | st :: sts, s, around, loop?, σ, I, hsim, hplain, hscope, hmarks => by
      rw [entries_cons] at hmarks
      have hst := value_nodes hrules k vars st hsim
        (fun t ht => hplain t (by simp [preorderAll, ht])) hscope.1
        (fun n hn => hmarks n (List.mem_append_left _ hn))
      have hsts := value_blockCost hrules k vars sts hsim
        (fun t ht => hplain t (by simp [preorderAll, ht])) hscope.2
        (fun n hn => hmarks n (List.mem_append_right _ hn))
      rw [value_blockCost_cons, hst, hsts, expectedAll]
termination_by structural sts => sts

end

end Stmt

/-- The names of an expression of a list are names of the list. -/
theorem Expr.mem_namesAll {es : List Expr} {e : Expr} (he : e ∈ es) {x : String}
    (hx : x ∈ e.names) : x ∈ namesAll es := by
  induction es with
  | nil => cases he
  | cons d es ih =>
      rw [namesAll, List.mem_append]
      rcases List.mem_cons.mp he with rfl | he
      · exact Or.inl hx
      · exact Or.inr (ih he)

/-- The bounds of a loop are expressions of it. -/
theorem Stmt.bounds_subset (st : Stmt) : st.bounds ⊆ st.expressions := by
  cases st with
  | forLoop l var start stop body => exact List.Subset.refl _
  | _ => exact List.nil_subset _

namespace Function

/-- The procedures that are charged what they are expected to cost: the
operations of a statement are counted in one word, bounds are arithmetic and
name a loop variable inside its loop only, no name in use is that of a numbered
index, and no bound of a loop overflows. -/
structure Regular (rules : CostRules) (f : Function) : Prop where
  operations : ∀ st ∈ Stmt.preorderAll f.body, Scalar.fits st.operations = true
  arithmetic : ∀ st ∈ Stmt.preorderAll f.body, ∀ e ∈ st.bounds, e.Arithmetic
  inScope : Stmt.AllBoundsInScope (Stmt.loopVars f.body) f.body []
  unnumbered : ∀ depth, Surroundings.numberedIndex depth ∉ f.reservedNames
  unmarked : ∀ n ∈ (f.nodes rules).2, n.Unmarked

variable {f : Function} {rules : CostRules} {p : ℚ}

/-- A name in a bound is that of a loop variable or reserved. -/
theorem Regular.plain (hf : f.Regular rules) {st : Stmt} (hst : st ∈ Stmt.preorderAll f.body) :
    st.Plain (Stmt.loopVars f.body) f.reservedNames where
  operations := hf.operations st hst
  arithmetic := hf.arithmetic st hst
  names := by
    intro e he x hx hvar
    have hname : x ∈ Stmt.namesIn f.body :=
      List.mem_flatMap.mpr ⟨st, hst, Expr.mem_namesAll (st.bounds_subset he) hx⟩
    exact List.mem_append_left _ (List.mem_filter.mpr ⟨hname, by simpa using hvar⟩)

/-- **A procedure is charged what it is expected to cost**, in each case and for
all values of its variables. -/
theorem value_nodes_eq_expected (hrules : rules.Weighs p) (hf : f.Regular rules) (k : CostCase)
    (I : Reading) : ((f.nodes rules).1.of k).value I = Stmt.expectedAll k p f.body none I.var := by
  have hsim : Surroundings.Simulates { reserved := f.reservedNames } [] none I.var I :=
    .outermost hf.unnumbered I
  exact Stmt.value_blockCost hrules k _ f.body hsim (fun _ => hf.plain) hf.inScope hf.unmarked

/-- Branches are even, and nothing else is charged. -/
def evenRules : CostRules where
  probability := .exact (1 / 2)
  countLoopControl := false
  incrementOperations := 1
  whileAverage := .over (.var "n") (.num 2)
  whileWorst := .var "n"

/-- The rules weigh branches by one half, and nothing else is charged. -/
theorem evenRules_weighs : evenRules.Weighs (1 / 2) where
  countLoopControl := rfl
  probability := rfl
  fits := ⟨_, rfl, by decide +kernel, by decide +kernel⟩
  nonneg := by norm_num
  le_one := by norm_num
  whileAverage := by rfl
  whileWorst := by rfl

/-- The inner loop hides the variable of the outer one, which its start
mentions.  One loop with a condition is inside both, and one is outside. -/
def shadowedLoops : Function where
  name := "f"
  params := [⟨"n", false⟩]
  lines := .unknown
  body :=
    [.forLoop .unknown "i" (.int 1) (.var "n")
      [.forLoop .unknown "i" (.var "i") (.binary .div (.binary .mul (.int 2) (.var "n")) (.int 2))
        [.whileLoop .unknown (.compare .lt (.var "x") (.int 3))
          [.branch .unknown (.compare .lt (.var "x") (.int 3)) [.action .unknown "swap"] none]]],
     .whileLoop .unknown (.compare .lt (.var "x") (.int 3))
      [.assign .unknown (.var "x") (.var "y")]]

/-- The bounds in `shadowedLoops` are arithmetic, and mention loop variables
inside of their loops only. -/
theorem shadowedLoops_regular : shadowedLoops.Regular evenRules where
  operations := by decide +kernel
  arithmetic := by
    simp only [shadowedLoops, Stmt.preorderAll, Stmt.preorder, List.append_nil, List.cons_append,
      List.nil_append, List.forall_mem_cons, Stmt.bounds, Expr.int]
    simp only [List.not_mem_nil, false_imp_iff, implies_true, and_true]
    exact ⟨⟨.int 1, .var _⟩, .var _, .div (.mul (.int 2) (.var _)) (.int 2)⟩
  inScope := by
    simp [shadowedLoops, Stmt.AllBoundsInScope, Stmt.BoundsInScope, Stmt.loopVars,
      Stmt.preorderAll, Stmt.preorder, Expr.int, Expr.names]
  unnumbered := Surroundings.numberedIndex_not_mem (by decide +kernel)
  unmarked := by
    unfold NodeCost.Unmarked
    decide +kernel

/-- In all three cases the value is what the expected cost comes to. -/
theorem value_nodes_eq_expected_shadowedLoops :
    evenRules.Weighs (1 / 2) ∧ shadowedLoops.Regular evenRules ∧
      ((shadowedLoops.nodes evenRules).1.of .best).value (Formula.sizedReading 3) = 7 ∧
      ((shadowedLoops.nodes evenRules).1.of .average).value (Formula.sizedReading 3) = 44 ∧
      ((shadowedLoops.nodes evenRules).1.of .worst).value (Formula.sizedReading 3) = 55 := by
  have hvalue := fun k => value_nodes_eq_expected evenRules_weighs shadowedLoops_regular k
    (Formula.sizedReading 3)
  refine ⟨evenRules_weighs, shadowedLoops_regular, ?_, ?_, ?_⟩
  · exact (hvalue .best).trans (by decide +kernel)
  · exact (hvalue .average).trans (by decide +kernel)
  · exact (hvalue .worst).trans (by decide +kernel)

end Function

end CostAnalysis
