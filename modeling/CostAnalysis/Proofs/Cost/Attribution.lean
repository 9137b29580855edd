import CostAnalysis.Cost.Report
import CostAnalysis.Proofs.Assoc
import CostAnalysis.Proofs.Cost.Nodes
import CostAnalysis.Proofs.Source.Spans
import Mathlib.Algebra.BigOperators.Pi
import Mathlib.Algebra.Order.BigOperators.Group.Finset

/-!
# The lines of a program share its cost

The cost of a program is computed from the inside out: a block adds up its
statements, a loop sums its body, a branch weighs its arms.  The costs of its
lines are computed the other way round: the own cost of each statement is
carried outwards through everything that it is inside of.  On average both ways
give the same (`CostReport.sum_lines_average`).

**The argument.**  To be inside of a scope means, for the value of a case of a
cost, that an operator is applied to it (`Scope.spread`), and all of these
operators are additive.  So what is inside a scope may be carried through it
piece by piece or as a whole, which by induction over statements and blocks
relates the charges of all statements inside a statement to its cost, carried
through the scopes around it (`Stmt.Shares.totalCharge_nodes`).  At the top
there are no scopes left.

**One induction for all cases.**  Loops are charged exactly in each case.  A
branch takes one of its arms in the best and the worst case, while a line
belongs to one arm and cannot know what the other one costs, so that there the
two ways differ.  `Stmt.Shares` therefore leaves open which relation is shown,
and asks for it at branches only.
-/

namespace CostAnalysis

/-! ## Carrying a value outwards

A scope is a loop or an arm around a statement: what is charged inside is summed
over the range of the loop, or weighed by the probability of the arm.  Both are
additive, and that is the reason why it makes no difference whether charges are
added up before they are carried outwards or after. -/

/-- How much of an arm is charged, where `p` is the probability of the arm. -/
def CostCase.weight (p : ℚ) : CostCase → ℚ
  | .best => 0
  | .average => p
  | .worst => 1

/-- The value of a case of the cost. -/
noncomputable def Cost.valueIn (k : CostCase) (c : Cost) (I : Reading) : ℚ :=
  (c.of k).value I

/-- The value of a case of a cost once per run of a scope, as it adds to that of
the scope. -/
noncomputable def Scope.spread (k : CostCase) (probability : Scalar) :
    Scope → (Reading → ℚ) → Reading → ℚ
  | .loop r, F, I =>
    if r.kind = .counted then
      ∑ x ∈ Finset.Icc ⌈r.start.value I⌉ ⌊r.stop.value I⌋, F (I.set r.index x)
    else if k = .best then 0
    else ∑ x ∈ Finset.Icc ⌈r.start.value I⌉ ⌊(r.stopOf k).value I⌋, F (I.set r.index x)
  | .yes, F, I => k.weight (I.scalar probability) * F I
  | .no, F, I => k.weight (I.scalar (1 - probability)) * F I

/-- The same through all scopes around a place, the innermost first. -/
noncomputable def Scope.spreadAll (k : CostCase) (probability : Scalar) (scopes : List Scope)
    (F : Reading → ℚ) : Reading → ℚ :=
  scopes.foldl (fun F scope => scope.spread k probability F) F

namespace Cost

variable (k : CostCase)

/-- The cost zero has the value zero. -/
@[simp] theorem valueIn_zero : zero.valueIn k = 0 := by
  funext I
  rw [valueIn, of_zero]
  rfl

/-- Values of costs add up. -/
theorem valueIn_add (c d : Cost) : (c.add d).valueIn k = c.valueIn k + d.valueIn k := by
  funext I
  rw [valueIn, of_add, Formula.value_add]
  rfl

end Cost

namespace Scope

variable (k : CostCase) (probability : Scalar)

/-- **To charge a cost through a scope** is to spread its value, in each
case. -/
theorem valueIn_charge (cost : Cost) (scope : Scope) :
    (scope.charge probability cost).valueIn k = scope.spread k probability (cost.valueIn k) := by
  funext I
  cases scope with
  | loop r =>
      -- a loop whose average range differs is summed over it on average alone
      rw [charge, spread]
      split
      · rw [Cost.valueIn, Cost.of_sumOver, Formula.value_sum]
        rfl
      · cases k with
        | best => rfl
        | average => exact Formula.value_sum I _ _ _ _
        | worst => exact Formula.value_sum I _ _ _ _
  | yes =>
      cases k with
      | best => exact (zero_mul _).symm
      | average => exact Formula.value_scale I _ _
      | worst => exact (one_mul _).symm
  | no =>
      cases k with
      | best => exact (zero_mul _).symm
      | average => exact Formula.value_scale I _ _
      | worst => exact (one_mul _).symm

/-- Every scope is additive. -/
theorem spread_add (scope : Scope) (F G : Reading → ℚ) :
    scope.spread k probability (F + G) =
      scope.spread k probability F + scope.spread k probability G := by
  funext I
  cases scope with
  | loop r =>
      simp only [spread, Pi.add_apply]
      split
      · exact Finset.sum_add_distrib
      · split
        · exact (add_zero 0).symm
        · exact Finset.sum_add_distrib
  | yes => exact mul_add _ _ _
  | no => exact mul_add _ _ _

theorem spread_zero (scope : Scope) : scope.spread k probability 0 = 0 := by
  have hadd := scope.spread_add k probability 0 0
  rw [add_zero] at hadd
  exact left_eq_add.mp hadd

/-- In the best and the worst case nothing is weighed by a probability, so that
more inside a scope is more outside of it. -/
theorem spread_mono {k : CostCase} (hk : k ≠ .average) (scope : Scope) {F G : Reading → ℚ}
    (h : F ≤ G) : scope.spread k probability F ≤ scope.spread k probability G := by
  intro I
  have hweight : ∀ p, 0 ≤ k.weight p := by
    intro p
    cases k with
    | best => exact le_rfl
    | average => exact absurd rfl hk
    | worst => exact zero_le_one
  cases scope with
  | loop r =>
      simp only [spread]
      split
      · exact Finset.sum_le_sum fun x _ => h _
      · split
        · exact le_rfl
        · exact Finset.sum_le_sum fun x _ => h _
  | yes => exact mul_le_mul_of_nonneg_left (h I) (hweight _)
  | no => exact mul_le_mul_of_nonneg_left (h I) (hweight _)

/-- Scopes are additive all together. -/
theorem spreadAll_add (scopes : List Scope) (F G : Reading → ℚ) :
    spreadAll k probability scopes (F + G) =
      spreadAll k probability scopes F + spreadAll k probability scopes G := by
  induction scopes generalizing F G with
  | nil => rfl
  | cons scope scopes ih =>
      rw [spreadAll, List.foldl_cons, spread_add]
      exact ih _ _

theorem spreadAll_zero (scopes : List Scope) : spreadAll k probability scopes 0 = 0 := by
  induction scopes with
  | nil => rfl
  | cons scope scopes ih =>
      rw [spreadAll, List.foldl_cons, spread_zero]
      exact ih

end Scope

namespace NodeCost

variable (k : CostCase) (probability : Scalar)

/-- A statement is charged its own cost, carried through all the scopes around
it. -/
theorem valueIn_charged (n : NodeCost) :
    (n.charged probability).valueIn k =
      Scope.spreadAll k probability n.scopes (n.ownPerRun.valueIn k) := by
  rw [charged]
  generalize n.ownPerRun = cost
  induction n.scopes generalizing cost with
  | nil => rfl
  | cons scope scopes ih =>
      rw [List.foldl_cons, ih, Scope.valueIn_charge]
      rfl

/-- What the statements of a list are charged together in a case. -/
noncomputable def totalCharge (nodes : List NodeCost) : Reading → ℚ :=
  (nodes.map fun n => (n.charged probability).valueIn k).sum

/-- The first statement adds its charge. -/
@[simp] theorem totalCharge_cons (n : NodeCost) (nodes : List NodeCost) :
    totalCharge k probability (n :: nodes) =
      (n.charged probability).valueIn k + totalCharge k probability nodes := by
  simp [totalCharge]

/-- Charges add up along a list. -/
@[simp] theorem totalCharge_append (nodes nodes' : List NodeCost) :
    totalCharge k probability (nodes ++ nodes') =
      totalCharge k probability nodes + totalCharge k probability nodes' := by
  simp [totalCharge]

end NodeCost

/-! ## Statements

The total of a block and the charges of its statements are compared by a
relation `R` on functions of the reading.  For the average case that is
equality, for the other two an inequality, or equality where no branch has a
second arm.  What such a relation needs for the induction over statements is
`Stmt.Shares`, so that there is one induction for all of them. -/

namespace Stmt

variable (rules : CostRules) (k : CostCase)

/-- A counting loop costs its control and what its body costs over the range. -/
theorem valueIn_counted (own body : Cost) {r : LoopRange} (hkind : r.kind = .counted) :
    (own.add (body.sumOver r.index r.start r.stop)).valueIn k =
      own.valueIn k + (Scope.loop r).spread k rules.probability (body.valueIn k) := by
  rw [Cost.valueIn_add]
  congr 1
  funext I
  rw [Scope.spread, if_pos hkind, Cost.valueIn, Cost.of_sumOver, Formula.value_sum]
  rfl

/-- A loop with a condition costs its guard, before each iteration and at the
end, and what its body costs over the range. -/
theorem valueIn_conditional (n : NodeCost) {guard : Formula} (body : Cost) {r : LoopRange}
    (hrange : n.range? = some r) (hkind : r.kind = .conditional)
    (hown : n.own = Cost.uniform guard) :
    (conditionalCost guard r body).valueIn k =
      n.ownPerRun.valueIn k + (Scope.loop r).spread k rules.probability (body.valueIn k) := by
  funext I
  -- the guard is summed apart from the body here, and together with it in the
  -- cost of the loop
  have hrepeated : ∀ e stop : Formula, (repeated guard e r.index r.start stop).value I =
      ((guard.sum r.index r.start stop).add guard).value I +
        ∑ x ∈ Finset.Icc ⌈r.start.value I⌉ ⌊stop.value I⌋, e.value (I.set r.index x) := by
    intro e stop
    rw [repeated, Formula.value_add, Formula.value_sum, Formula.value_add, Formula.value_sum]
    simp only [Formula.value_add, Finset.sum_add_distrib]
    ring
  simp only [NodeCost.ownPerRun, hrange, hkind, if_true, hown, Pi.add_apply, Scope.spread]
  cases k with
  | best => exact (add_zero _).symm
  | average => exact hrepeated body.average r.averageStop
  | worst => exact hrepeated body.worst r.stop

/-- A block costs what its first statement and the others cost. -/
theorem valueIn_blockCost_cons (s : Surroundings) (st : Stmt) (sts : Block) :
    (blockCost rules s (st :: sts)).valueIn k =
      (nodes rules s st).1.valueIn k + (blockCost rules s sts).valueIn k := by
  funext I
  exact value_blockCost_cons rules s k I st sts

/-- The cost of the arm for a guard that fails, if there is one. -/
def elseCost (s : Surroundings) (no : Option Block) : Cost :=
  (no.map (blockCost rules (s.inside .no))).getD Cost.zero

/-- The guard of a branch and its arms, as they are charged. -/
noncomputable def chargedBranch (guard : Formula) (yes no : Cost) : Reading → ℚ :=
  (Cost.uniform guard).valueIn k + (Scope.yes.spread k rules.probability (yes.valueIn k) +
    Scope.no.spread k rules.probability (no.valueIn k))

/-- The relation `R` between what is charged and what is to be charged can be
carried outwards, and it holds at the branches among the allowed statements. -/
structure Shares (allowed : Stmt → Prop) (R : (Reading → ℚ) → (Reading → ℚ) → Prop) : Prop where
  refl : ∀ F, R F F
  trans : ∀ {F G H}, R F G → R G H → R F H
  add : ∀ {F F' G G'}, R F F' → R G G' → R (F + G) (F' + G')
  spread : ∀ (scope : Scope) {F G}, R F G →
    R (scope.spread k rules.probability F) (scope.spread k rules.probability G)
  branch : ∀ (l : LineSpan) (cond : Expr) (yes : Block) (no : Option Block) (s : Surroundings),
    (∀ t ∈ preorder (.branch l cond yes no), allowed t) →
    R (chargedBranch rules k (Formula.int (Int.ofNat cond.operations))
        (blockCost rules (s.inside .yes) yes) (elseCost rules s no))
      ((nodes rules s (.branch l cond yes no)).1.valueIn k)

namespace Shares

variable {rules k} {allowed : Stmt → Prop} {R : (Reading → ℚ) → (Reading → ℚ) → Prop}
  (h : Shares rules k allowed R)
include h

theorem of_eq {F G : Reading → ℚ} (hFG : F = G) : R F G :=
  hFG ▸ h.refl F

/-- The relation is carried through all scopes around a place, one after the
other. -/
theorem spreadAll (scopes : List Scope) {F G : Reading → ℚ} (hFG : R F G) :
    R (Scope.spreadAll k rules.probability scopes F)
      (Scope.spreadAll k rules.probability scopes G) := by
  induction scopes generalizing F G with
  | nil => exact hFG
  | cons scope scopes ih => exact ih (h.spread scope hFG)

/-- **One step outwards.**  If the charges of what is inside a statement are
related to `F`, and `F` and the statement's own cost are related to its cost,
then so are the charges of the statement as a whole. -/
theorem step {s : Surroundings} {n : NodeCost} {inner : List NodeCost} {cost : Cost}
    {F : Reading → ℚ} (hscopes : n.scopes = s.scopes)
    (hinner : R (NodeCost.totalCharge k rules.probability inner)
      (Scope.spreadAll k rules.probability s.scopes F))
    (hcost : R (n.ownPerRun.valueIn k + F) (cost.valueIn k)) :
    R (NodeCost.totalCharge k rules.probability (n :: inner))
      (Scope.spreadAll k rules.probability s.scopes (cost.valueIn k)) := by
  rw [NodeCost.totalCharge_cons, NodeCost.valueIn_charged, hscopes]
  refine h.trans (h.add (h.refl _) hinner) ?_
  rw [← Scope.spreadAll_add]
  exact h.spreadAll s.scopes hcost

/-- A statement without blocks is charged what it costs. -/
theorem totalCharge_leaf (s : Surroundings) (typeName : String) (l : LineSpan) (n : ℕ)
    (notes : List Note) :
    R (NodeCost.totalCharge k rules.probability (leaf s typeName l n notes).2)
      (Scope.spreadAll k rules.probability s.scopes
        ((leaf s typeName l n notes).1.valueIn k)) := by
  have hinner : R (NodeCost.totalCharge k rules.probability [])
      (Scope.spreadAll k rules.probability s.scopes 0) :=
    h.of_eq (Scope.spreadAll_zero k rules.probability s.scopes).symm
  exact h.step rfl hinner (h.of_eq (add_zero _))

mutual

/-- **The charges of a statement and of all statements in it are related to its
cost**, carried through what the statement is inside of. -/
theorem totalCharge_nodes : ∀ (st : Stmt) (s : Surroundings), (∀ t ∈ preorder st, allowed t) →
    R (NodeCost.totalCharge k rules.probability (nodes rules s st).2)
      (Scope.spreadAll k rules.probability s.scopes ((nodes rules s st).1.valueIn k))
  | .assign _ _ _, s, _ => h.totalCharge_leaf s _ _ _ _
  | .declare _ _, s, _ => h.totalCharge_leaf s _ _ _ _
  | .returns _ _, s, _ => h.totalCharge_leaf s _ _ _ _
  | .evaluate _ _, s, _ => h.totalCharge_leaf s _ _ _ _
  | .call _ _ _, s, _ => h.totalCharge_leaf s _ _ _ _
  | .action _ _, s, _ => h.totalCharge_leaf s _ _ _ _
  | .forLoop l var start stop body, s, hst => by
      rw [nodes_forLoop_snd]
      have hbody := totalCharge_entries body (s.inside (.loop (rangeOf s var start stop)))
        fun t ht => hst t (by simp [preorder, ht])
      refine h.step rfl hbody (h.of_eq ?_)
      rw [nodes_forLoop_fst]
      exact (valueIn_counted rules k _ _ rfl).symm
  | .whileLoop l cond body, s, hst => by
      rw [nodes_whileLoop_snd]
      have hbody := totalCharge_entries body (s.inside (.loop (conditionalRange rules s)))
        fun t ht => hst t (by simp [preorder, ht])
      refine h.step rfl hbody (h.of_eq ?_)
      rw [nodes_whileLoop_fst]
      exact (valueIn_conditional rules k _ _ rfl rfl rfl).symm
  | .branch l cond yes (some no), s, hst => by
      rw [nodes_branch_some_snd]
      have hyes := totalCharge_entries yes (s.inside .yes) fun t ht =>
        hst t (by simp [preorder, ht])
      have hno := totalCharge_entries no (s.inside .no) fun t ht =>
        hst t (by simp [preorder, ht])
      have harms : R (NodeCost.totalCharge k rules.probability
          (entries rules (s.inside .yes) yes ++ entries rules (s.inside .no) no))
          (Scope.spreadAll k rules.probability s.scopes
            (Scope.yes.spread k rules.probability
                ((blockCost rules (s.inside .yes) yes).valueIn k) +
              Scope.no.spread k rules.probability
                ((blockCost rules (s.inside .no) no).valueIn k))) := by
        rw [NodeCost.totalCharge_append, Scope.spreadAll_add]
        exact h.add hyes hno
      exact h.step rfl harms (h.branch l cond yes (some no) s hst)
  | .branch l cond yes none, s, hst => by
      rw [nodes_branch_none_snd]
      have hyes := totalCharge_entries yes (s.inside .yes) fun t ht =>
        hst t (by simp [preorder, ht])
      -- an arm that is not there is charged nothing
      refine h.step rfl hyes (h.trans (h.of_eq ?_) (h.branch l cond yes none s hst))
      rw [chargedBranch, elseCost, Option.map_none, Option.getD_none, Cost.valueIn_zero,
        Scope.spread_zero, add_zero]
      rfl
termination_by structural st => st

/-- The same for a block: the charges of its statements are carried out
together. -/
theorem totalCharge_entries : ∀ (sts : List Stmt) (s : Surroundings),
    (∀ t ∈ preorderAll sts, allowed t) →
    R (NodeCost.totalCharge k rules.probability (entries rules s sts))
      (Scope.spreadAll k rules.probability s.scopes ((blockCost rules s sts).valueIn k))
  | [], s, _ => by
      have hnil : (blockCost rules s []).valueIn k = 0 := Cost.valueIn_zero k
      rw [hnil, Scope.spreadAll_zero]
      exact h.refl _
  | st :: sts, s, hsts => by
      have hst := totalCharge_nodes st s fun t ht => hsts t (by simp [preorderAll, ht])
      have hsts := totalCharge_entries sts s fun t ht => hsts t (by simp [preorderAll, ht])
      rw [entries_cons, NodeCost.totalCharge_append, valueIn_blockCost_cons, Scope.spreadAll_add]
      exact h.add hst hsts
termination_by structural sts => sts

end

end Shares

/-- On average each arm of a branch is charged by its weight, which is what the
branch costs. -/
theorem shares_average : Shares rules .average (fun _ => True) (· = ·) where
  refl _ := rfl
  trans := Eq.trans
  add := congrArg₂ (· + ·)
  spread scope _ _ := congrArg (scope.spread .average rules.probability)
  branch l cond yes no s _ := by
    have hchoice : ∀ (guard : Formula) (yes no : Cost), chargedBranch rules .average guard yes no =
        (Cost.choice guard yes no rules.probability).valueIn .average := by
      intro guard yes no
      funext I
      show _ = ((guard.add (yes.average.scale rules.probability)).add
        (no.average.scale (1 - rules.probability))).value I
      rw [Formula.value_add, Formula.value_add, Formula.value_scale, Formula.value_scale, add_assoc]
      rfl
    cases no with
    | none => exact hchoice _ _ _
    | some no => exact hchoice _ _ _

mutual

/-- There is one entry for each statement, with its lines and its kind. -/
theorem map_head_nodes : ∀ (st : Stmt) (s : Surroundings),
    (nodes rules s st).2.map (fun n => (n.lines, n.typeName)) =
      (preorder st).map fun t => (t.lines, t.typeName)
  | .assign _ _ _, s => rfl
  | .declare _ _, s => rfl
  | .returns _ _, s => rfl
  | .evaluate _ _, s => rfl
  | .call _ _ _, s => rfl
  | .action _ _, s => rfl
  | .forLoop l var start stop body, s => by
      rw [nodes_forLoop_snd, List.map_cons, map_head_entries body, preorder]
      rfl
  | .whileLoop l cond body, s => by
      rw [nodes_whileLoop_snd, List.map_cons, map_head_entries body, preorder]
      rfl
  | .branch l cond yes (some no), s => by
      rw [nodes_branch_some_snd, List.map_cons, List.map_append, map_head_entries yes,
        map_head_entries no, preorder, List.map_cons, List.map_append]
      rfl
  | .branch l cond yes none, s => by
      rw [nodes_branch_none_snd, List.map_cons, map_head_entries yes, preorder]
      rfl
termination_by structural st => st

/-- The entries of a block are those of its statements at all depths, in source
order. -/
theorem map_head_entries : ∀ (sts : List Stmt) (s : Surroundings),
    (entries rules s sts).map (fun n => (n.lines, n.typeName)) =
      (preorderAll sts).map fun t => (t.lines, t.typeName)
  | [], s => rfl
  | st :: sts, s => by
      rw [entries_cons, List.map_append, map_head_nodes st, map_head_entries sts, preorderAll,
        List.map_append]
termination_by structural sts => sts

end

/-- The entries of located statements are located. -/
theorem AllLocated.entries {rules : CostRules} {s : Surroundings} {body : Block}
    (h : AllLocated body) : ∀ n ∈ entries rules s body, ∃ line, n.lines.first? = some line := by
  intro n hn
  have hhead : (n.lines, n.typeName) ∈ (preorderAll body).map fun t => (t.lines, t.typeName) := by
    rw [← map_head_entries rules body s]
    exact List.mem_map_of_mem hn
  obtain ⟨t, ht, hhead⟩ := List.mem_map.mp hhead
  rw [← (Prod.mk.inj hhead).1]
  exact h t ht

end Stmt

/-! ## Programs -/

namespace Program

variable {rules : CostRules} {p : Program}

/-- What holds at the start and is kept by every procedure holds of a
program. -/
theorem nodes_induction {P : Cost → List NodeCost → Prop} (hzero : P Cost.zero [])
    (hstep : ∀ f ∈ p.functions, ∀ total entries, P total entries →
      P (total.add (f.nodes rules).1) (entries ++ (f.nodes rules).2)) :
    P (p.nodes rules).1 (p.nodes rules).2 := by
  obtain ⟨fs⟩ := p
  rw [nodes]
  show P (fs.foldl _ (Cost.zero, [])).1 (fs.foldl _ (Cost.zero, [])).2
  -- the fold may start anywhere, as long as the property holds there
  generalize Cost.zero = total, ([] : List NodeCost) = entries at hzero
  induction fs generalizing total entries with
  | nil => exact hzero
  | cons f fs ih =>
      exact ih (fun g hg => hstep g (List.mem_cons_of_mem _ hg)) _ _
        (hstep f List.mem_cons_self total entries hzero)

/-- The charges of all statements of a program are related to its cost. -/
theorem totalCharge_nodes {k : CostCase} {allowed : Stmt → Prop}
    {R : (Reading → ℚ) → (Reading → ℚ) → Prop} (h : Stmt.Shares rules k allowed R)
    (hp : ∀ f ∈ p.functions, ∀ st ∈ Stmt.preorderAll f.body, allowed st) :
    R (NodeCost.totalCharge k rules.probability (p.nodes rules).2)
      ((p.nodes rules).1.valueIn k) := by
  refine nodes_induction
    (P := fun total entries =>
      R (NodeCost.totalCharge k rules.probability entries) (total.valueIn k)) ?_ ?_
  · rw [Cost.valueIn_zero]
    exact h.refl _
  · intro f hf total entries htotal
    have hbody : R (NodeCost.totalCharge k rules.probability (f.nodes rules).2)
        ((f.nodes rules).1.valueIn k) := h.totalCharge_entries f.body _ (hp f hf)
    rw [NodeCost.totalCharge_append, Cost.valueIn_add]
    exact h.add htotal hbody

/-- Every entry starts on a line, if every statement does. -/
theorem first?_of_mem_nodes (hp : ∀ f ∈ p.functions, Stmt.AllLocated f.body) :
    ∀ n ∈ (p.nodes rules).2, ∃ line, n.lines.first? = some line := by
  refine nodes_induction
    (P := fun _ entries => ∀ n ∈ entries, ∃ line, n.lines.first? = some line) (by simp) ?_
  intro f hf total entries h n hn
  rcases List.mem_append.mp hn with hn | hn
  · exact h n hn
  · exact (hp f hf).entries n hn

end Program

/-! ## Lines

The table of lines adds each charge to one entry.  What the lines cost together
is therefore any additive function of the charges, whatever their order. -/

namespace LineCost

section Additive

/- What is summed over lines may be the value of any case of a cost, or anything else that adds up
along sequences of statements. -/
variable {F : Cost → Reading → ℚ} (hzero : F Cost.zero = 0)
  (hadd : ∀ c d, F (c.add d) = F c + F d)

/-- What the lines of a table cost together. -/
noncomputable def totalOf (F : Cost → Reading → ℚ) (table : List (ℕ × LineCost)) : Reading → ℚ :=
  (table.map fun entry => F entry.2.cost).sum

/-- The costs of two tables add up. -/
theorem totalOf_append (table table' : List (ℕ × LineCost)) :
    totalOf F (table ++ table') = totalOf F table + totalOf F table' := by
  rw [totalOf, List.map_append, List.sum_append]
  rfl

/-- A line without an entry costs nothing. -/
@[simp] theorem totalOf_entry_none (number : ℕ) : totalOf F (Assoc.entry number none) = 0 := rfl

/-- And one with an entry what the entry says. -/
@[simp] theorem totalOf_entry_some (number : ℕ) (line : LineCost) :
    totalOf F (Assoc.entry number (some line)) = F line.cost :=
  add_zero _

include hzero hadd

/-- A charge that is recorded adds to the lines. -/
theorem totalOf_record (lines : List (List Char)) (typeName : String) (charge : Cost)
    (number : ℕ) (table : List (ℕ × LineCost)) :
    totalOf F (record lines typeName charge number table) = totalOf F table + F charge := by
  have heq : ∀ k : ℕ, compare number k = .eq → k = number := fun k h =>
    (Nat.compare_eq_eq.mp h).symm
  -- the write replaces what the line had before, a cost or nothing, by that and
  -- the charge
  obtain ⟨before, old?, after, htable, -, -, halter⟩ := Assoc.alter_cut number heq table
  rw [record, halter, htable, totalOf_append, totalOf_append, totalOf_append,
    totalOf_append, totalOf_entry_some, hadd]
  cases old? with
  | none =>
      rw [Option.getD_none, hzero, totalOf_entry_none]
      abel
  | some line =>
      rw [Option.getD_some, totalOf_entry_some]
      abel

/-- All charges together make up the lines, if each of them has a line to go
to. -/
theorem sum_ofNodes (probability : Scalar) (source : String) {nodes : List NodeCost}
    (h : ∀ n ∈ nodes, ∃ line, n.lines.first? = some line) :
    ((ofNodes probability source nodes).map fun line => F line.cost).sum =
      (nodes.map fun n => F (n.charged probability)).sum := by
  have hfold : ∀ table,
      totalOf F (nodes.foldl (recordNode probability (sourceLines source)) table) =
      totalOf F table + (nodes.map fun n => F (n.charged probability)).sum := by
    induction nodes with
    | nil => exact fun table => (add_zero _).symm
    | cons n nodes ih =>
        intro table
        obtain ⟨line, hline⟩ := h n List.mem_cons_self
        rw [List.foldl_cons, ih fun m hm => h m (List.mem_cons_of_mem _ hm), recordNode, hline,
          totalOf_record hzero hadd, List.map_cons, List.sum_cons, add_assoc]
  rw [ofNodes, List.map_map]
  exact (hfold []).trans (zero_add _)

end Additive

/-- What the lines cost in a case is what the statements are charged. -/
theorem sum_valueIn_ofNodes (k : CostCase) (probability : Scalar) (source : String)
    {nodes : List NodeCost} (h : ∀ n ∈ nodes, ∃ line, n.lines.first? = some line) (I : Reading) :
    ((ofNodes probability source nodes).map fun line => (line.cost.of k).value I).sum =
      NodeCost.totalCharge k probability nodes I := by
  have hvalue := congrFun (sum_ofNodes (Cost.valueIn_zero k) (Cost.valueIn_add k) probability
    source h) I
  rw [Pi.list_sum_apply, List.map_map] at hvalue
  exact hvalue

end LineCost

namespace CostReport

/-- **The average costs of the lines of a program that was read add up to its
own**, under every reading and whatever the rules of charging are. -/
theorem sum_lines_average {source : String} {p : Program} (hp : Program.parse source = .ok p)
    (rules : CostRules) (text : String) (I : Reading) :
    ((ofProgram rules p text).lines.map fun line => line.cost.average.value I).sum =
      (ofProgram rules p text).total.average.value I := by
  have hlocated : ∀ n ∈ (p.nodes rules).2, ∃ line, n.lines.first? = some line :=
    Program.first?_of_mem_nodes (Program.located_of_parse hp)
  have htotal : NodeCost.totalCharge .average rules.probability (p.nodes rules).2 =
      (p.nodes rules).1.valueIn .average :=
    Program.totalCharge_nodes (Stmt.shares_average rules) fun _ _ _ _ => trivial
  exact (LineCost.sum_valueIn_ofNodes .average rules.probability text hlocated I).trans
    (congrFun htotal I)

/-- Rules under which nothing is free. -/
def strictRules : CostRules where
  probability := .exact (1 / 3)
  countLoopControl := true
  incrementOperations := 2
  whileAverage := .logOf (.var "n")
  whileWorst := .raised (.var "n") (.num 2)

/-- A branch inside a counting loop inside a loop with a condition. -/
def nestedSource : String :=
  "f(n) begin\nwhile a < n do begin\nfor i 🡨 1 to n do begin\n" ++
    "if x < i then begin x 🡨 x + 1 end\nelse begin y 🡨 2 end\nend end end"

/-- For the size `3` the lines of `nestedSource` cost 58 together, which is the
total. -/
theorem sum_lines_average_nestedSource :
    ∃ p, Program.parse nestedSource = .ok p ∧
      (ofProgram strictRules p nestedSource).lines.map LineCost.number = [2, 3, 4, 5] ∧
      ((ofProgram strictRules p nestedSource).lines.map fun line =>
        line.cost.average.value (Formula.sizedReading 3)).sum = 58 := by
  -- the program and its report are computed once, by the kernel
  have hreport : (Program.parse nestedSource).toOption.map (fun p =>
      ((ofProgram strictRules p nestedSource).lines.map LineCost.number,
        (ofProgram strictRules p nestedSource).total.average.value (Formula.sizedReading 3))) =
      some ([2, 3, 4, 5], 58) := by
    decide +kernel
  cases hparse : Program.parse nestedSource with
  | error e =>
      rw [hparse] at hreport
      cases hreport
  | ok p =>
      rw [hparse] at hreport
      obtain ⟨hnumbers, htotal⟩ := Prod.mk.inj (Option.some.inj hreport)
      refine ⟨p, rfl, hnumbers, ?_⟩
      rw [sum_lines_average hparse]
      exact htotal

end CostReport

end CostAnalysis
