import CostAnalysis.Cost.Nodes
import CostAnalysis.Proofs.Formula.Value

/-!
# Equations for the costs of statements

`Stmt.nodes` and `Stmt.blockNodes` compute a cost and a list of entries at the
same time.  Here their results are written as two equations each, in terms of
the costs and the entries of the blocks inside, so that a proof about costs
never has to look at entries, nor the other way round.

A cost is looked at one case at a time (`Cost.of`), and a block costs what its
statements cost (`Stmt.value_blockCost_cons`).

The equations come in pairs for each statement with blocks, one for the cost and
one for the entries.  Later proofs rewrite with them and never unfold the walk
itself, so that a change of the walk is a change of these equations.
-/

namespace CostAnalysis

/-- The three cases of a cost. -/
inductive CostCase where
  | best
  | average
  | worst
deriving DecidableEq

/-- The formula of a case. -/
def Cost.of (c : Cost) : CostCase → Formula
  | .best => c.best
  | .average => c.average
  | .worst => c.worst

/-- The end of the range in a case. -/
def LoopRange.stopOf (r : LoopRange) : CostCase → Formula
  | .average => r.averageStop
  | _ => r.stop

namespace Cost

variable (k : CostCase)

/-- A case of a sum is the sum of the cases. -/
@[simp] theorem of_add (c d : Cost) : (c.add d).of k = (c.of k).add (d.of k) := by
  cases k <;> rfl

/-- A case of a loop is the sum of that case of its body. -/
@[simp] theorem of_sumOver (c : Cost) (index : String) (start stop : Formula) :
    (c.sumOver index start stop).of k = (c.of k).sum index start stop := by
  cases k <;> rfl

/-- All cases of a uniform cost are the same. -/
@[simp] theorem of_uniform (e : Formula) : (uniform e).of k = e := by
  cases k <;> rfl

/-- The cost zero is zero in each case. -/
@[simp] theorem of_zero : zero.of k = Formula.zero := of_uniform k _

/-- A number of operations is the same in each case. -/
@[simp] theorem of_constant (z : ℤ) : (constant z).of k = Formula.int z := of_uniform k _

end Cost

namespace Stmt

variable (rules : CostRules) (s : Surroundings) (l : LineSpan) (cond : Expr)

/-- The range of a counting loop, without the notes on its bounds. -/
def rangeOf (s : Surroundings) (var : String) (start stop : Expr) : LoopRange :=
  (countedRange s var start stop).1

/-- The cost of a block from nothing on. -/
def blockCost (rules : CostRules) (s : Surroundings) (body : Block) : Cost :=
  (blockNodes rules s Cost.zero body).1

/-! ## Costs

Each equation unfolds one statement, and leaves the blocks in it as costs of
their own.  The entries do not occur in them. -/

/-- A counting loop costs its control, and its body summed over the range. -/
theorem nodes_forLoop_fst (var : String) (start stop : Expr) (body : Block) :
    (nodes rules s (.forLoop l var start stop body)).1 =
      (loopControl rules (rangeOf s var start stop)).add
        ((blockCost rules (s.inside (.loop (rangeOf s var start stop))) body).sumOver
          (rangeOf s var start stop).index (rangeOf s var start stop).start
          (rangeOf s var start stop).stop) := rfl

/-- A loop with a condition costs what its guard and its body make of the range
that is assumed for it. -/
theorem nodes_whileLoop_fst (body : Block) :
    (nodes rules s (.whileLoop l cond body)).1 =
      conditionalCost (Formula.int (Int.ofNat cond.operations)) (conditionalRange rules s)
        (blockCost rules (s.inside (.loop (conditionalRange rules s))) body) := rfl

theorem nodes_branch_some_fst (yes no : Block) :
    (nodes rules s (.branch l cond yes (some no))).1 =
      Cost.choice (Formula.int (Int.ofNat cond.operations)) (blockCost rules (s.inside .yes) yes)
        (blockCost rules (s.inside .no) no) rules.probability := rfl

/-- Without another arm the choice is between the one arm and nothing. -/
theorem nodes_branch_none_fst (yes : Block) :
    (nodes rules s (.branch l cond yes none)).1 =
      Cost.choice (Formula.int (Int.ofNat cond.operations)) (blockCost rules (s.inside .yes) yes)
        Cost.zero rules.probability := rfl

/-- The cost of a statement without blocks, in every case. -/
theorem of_leaf (typeName : String) (n : ℕ)
    (notes : List Note) (k : CostCase) :
    (leaf s typeName l n notes).1.of k = Formula.int (Int.ofNat n) :=
  Cost.of_constant k _

/-- A block adds its statements to what came before, one after the other. -/
theorem blockNodes_cons_fst (acc : Cost) (st : Stmt) (sts : Block) :
    (blockNodes rules s acc (st :: sts)).1 =
      (blockNodes rules s (acc.add (nodes rules s st).1) sts).1 := by
  rw [blockNodes]

/-- The cost of a block is added to that of what comes before it. -/
theorem value_blockNodes (k : CostCase) (I : Reading) (acc : Cost) (sts : Block) :
    ((blockNodes rules s acc sts).1.of k).value I =
      (acc.of k).value I + ((blockCost rules s sts).of k).value I := by
  -- both sides start from some cost, so the induction is over all of them at
  -- once
  have hstart : ∀ acc acc' : Cost,
      ((blockNodes rules s acc sts).1.of k).value I + (acc'.of k).value I =
        (acc.of k).value I + ((blockNodes rules s acc' sts).1.of k).value I := by
    induction sts with
    | nil => exact fun acc acc' => rfl
    | cons st sts ih =>
        intro acc acc'
        have hnext := ih (acc.add (nodes rules s st).1) (acc'.add (nodes rules s st).1)
        rw [Cost.of_add, Cost.of_add, Formula.value_add, Formula.value_add] at hnext
        rw [blockNodes_cons_fst, blockNodes_cons_fst]
        linarith
  have hzero : (Cost.zero.of k).value I = 0 := by
    rw [Cost.of_zero]
    rfl
  rw [blockCost, ← hstart, hzero, add_zero]

/-- The empty block costs nothing. -/
theorem value_blockCost_nil (k : CostCase) (I : Reading) :
    ((blockCost rules s []).of k).value I = 0 := by
  show (Cost.zero.of k).value I = 0
  rw [Cost.of_zero]
  rfl

/-- A block costs what its statements cost. -/
theorem value_blockCost_cons (k : CostCase) (I : Reading) (st : Stmt) (sts : Block) :
    ((blockCost rules s (st :: sts)).of k).value I =
      ((nodes rules s st).1.of k).value I + ((blockCost rules s sts).of k).value I := by
  rw [blockCost, blockNodes_cons_fst, value_blockNodes, Cost.of_add, Cost.of_zero,
    Formula.value_add]
  show 0 + _ + _ = _
  rw [zero_add]

/-! ## Entries

The same for the entries: that of the statement itself comes first, and then
those of its blocks, in source order. -/

/-- The entries of a block.  They do not depend on the cost of what comes before
it. -/
def entries (rules : CostRules) (s : Surroundings) (body : Block) : List NodeCost :=
  (blockNodes rules s Cost.zero body).2

/-- Whatever came before, the entries of a block are the same. -/
theorem blockNodes_snd (acc : Cost) (sts : Block) :
    (blockNodes rules s acc sts).2 = entries rules s sts := by
  rw [entries]
  generalize Cost.zero = acc'
  induction sts generalizing acc acc' with
  | nil => rfl
  | cons st sts ih =>
      simp only [blockNodes]
      rw [ih]

/-- The entries of the first statement come first. -/
theorem entries_cons (st : Stmt) (sts : Block) :
    entries rules s (st :: sts) = (nodes rules s st).2 ++ entries rules s sts := by
  rw [entries, blockNodes]
  simp only [blockNodes_snd]

/-- The entry of a counting loop has the range with the notes on its bounds. -/
theorem nodes_forLoop_snd (var : String) (start stop : Expr) (body : Block) :
    (nodes rules s (.forLoop l var start stop body)).2 =
      ⟨"For", (nodes rules s (.forLoop l var start stop body)).1,
        loopControl rules (rangeOf s var start stop), some (rangeOf s var start stop), l, s.scopes,
        (countedRange s var start stop).2⟩ ::
      entries rules (s.inside (.loop (rangeOf s var start stop))) body := rfl

/-- The entry of a loop with a condition has the range that was assumed. -/
theorem nodes_whileLoop_snd (body : Block) :
    (nodes rules s (.whileLoop l cond body)).2 =
      ⟨"While", (nodes rules s (.whileLoop l cond body)).1,
        Cost.uniform (Formula.int (Int.ofNat cond.operations)), some (conditionalRange rules s), l,
        s.scopes, []⟩ ::
      entries rules (s.inside (.loop (conditionalRange rules s))) body := rfl

/-- The entry of a branch has no range, and the arms follow, the one for a guard
that holds first.
-/
theorem nodes_branch_some_snd (yes no : Block) :
    (nodes rules s (.branch l cond yes (some no))).2 =
      ⟨"If", (nodes rules s (.branch l cond yes (some no))).1,
        Cost.uniform (Formula.int (Int.ofNat cond.operations)), none, l, s.scopes, []⟩ ::
      (entries rules (s.inside .yes) yes ++ entries rules (s.inside .no) no) := rfl

theorem nodes_branch_none_snd (yes : Block) :
    (nodes rules s (.branch l cond yes none)).2 =
      ⟨"If", (nodes rules s (.branch l cond yes none)).1,
        Cost.uniform (Formula.int (Int.ofNat cond.operations)), none, l, s.scopes, []⟩ ::
      entries rules (s.inside .yes) yes := rfl

end Stmt

end CostAnalysis
