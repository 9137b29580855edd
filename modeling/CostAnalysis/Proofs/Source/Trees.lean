import CostAnalysis.Source.Program
import Mathlib.Data.List.Basic

/-!
# Going through syntax trees

Expressions have expressions in them, and statements have blocks of statements
in them.  What is said of all of them at any depth is proved of one whose
immediate parts have it already (`Expr.children_induction`,
`Stmt.blocks_induction`), so that a proof need not know every kind of expression
or statement.

The list of all statements is in the same form: a statement, and then those of
its blocks (`Stmt.preorder_eq`).

**Why an induction of its own.**  The recursion of a syntax tree goes through
lists of subtrees, and a proof by that recursion has to state everything twice,
for a tree and for a list.  Here it is stated twice once and for all; what uses
it has one case, and a hypothesis about every immediate part.
-/

namespace CostAnalysis

namespace Expr

mutual

/-- What an expression has if its immediate subexpressions have it, all
expressions have. -/
theorem children_induction {P : Expr → Prop} (h : ∀ e, (∀ c ∈ e.children, P c) → P e) :
    ∀ e : Expr, P e
  | .var _ => h _ nofun
  | .literal _ => h _ nofun
  | .binary _ a b =>
      h _ (by simpa [children] using ⟨children_induction h a, children_induction h b⟩)
  | .unary _ a => h _ (by simpa [children] using children_induction h a)
  | .compare _ a b =>
      h _ (by simpa [children] using ⟨children_induction h a, children_induction h b⟩)
  | .call _ args => h _ (children_inductionAll h args)
  | .index a i =>
      h _ (by simpa [children] using ⟨children_induction h a, children_induction h i⟩)
  | .array es => h _ (children_inductionAll h es)
termination_by structural e => e

/-- The same for every expression of a list.  The two go along each other, as
the arguments of a call are a list of expressions. -/
theorem children_inductionAll {P : Expr → Prop} (h : ∀ e, (∀ c ∈ e.children, P c) → P e) :
    ∀ es : List Expr, ∀ c ∈ es, P c
  | [] => nofun
  | e :: es => List.forall_mem_cons.mpr ⟨children_induction h e, children_inductionAll h es⟩
termination_by structural es => es

end

end Expr

namespace Stmt

mutual

/-- What a statement has if the statements of its blocks have it, all statements
have. -/
theorem blocks_induction {P : Stmt → Prop}
    (h : ∀ st, (∀ body ∈ st.blocks, ∀ t ∈ body, P t) → P st) : ∀ st : Stmt, P st
  | .assign _ _ _ => h _ nofun
  | .declare _ _ => h _ nofun
  | .forLoop _ _ _ _ body =>
      h _ (by simpa [blocks] using blocks_inductionAll h body)
  | .whileLoop _ _ body => h _ (by simpa [blocks] using blocks_inductionAll h body)
  | .branch _ _ yes (some no) =>
      h _ (by simpa [blocks] using ⟨blocks_inductionAll h yes, blocks_inductionAll h no⟩)
  | .branch _ _ yes none => h _ (by simpa [blocks] using blocks_inductionAll h yes)
  | .returns _ _ => h _ nofun
  | .evaluate _ _ => h _ nofun
  | .call _ _ _ => h _ nofun
  | .action _ _ => h _ nofun
termination_by structural st => st

/-- The same for every statement of a block. -/
theorem blocks_inductionAll {P : Stmt → Prop}
    (h : ∀ st, (∀ body ∈ st.blocks, ∀ t ∈ body, P t) → P st) :
    ∀ sts : List Stmt, ∀ t ∈ sts, P t
  | [] => nofun
  | st :: sts => List.forall_mem_cons.mpr ⟨blocks_induction h st, blocks_inductionAll h sts⟩
termination_by structural sts => sts

end

/-- The statements of a block are those of each of its statements, in their
order. -/
theorem preorderAll_eq_flatMap (body : Block) : preorderAll body = body.flatMap preorder := by
  induction body with
  | nil => rfl
  | cons st sts ih => rw [preorderAll, ih, List.flatMap_cons]

/-- A statement comes first, then those of its blocks. -/
theorem preorder_eq (st : Stmt) : preorder st = st :: st.blocks.flatMap preorderAll := by
  cases st with
  | branch l cond yes no => cases no <;> simp [preorder, blocks]
  | _ => simp [preorder, blocks]

theorem mem_preorderAll {t : Stmt} {body : Block} :
    t ∈ preorderAll body ↔ ∃ st ∈ body, t ∈ preorder st := by
  rw [preorderAll_eq_flatMap, List.mem_flatMap]

/-- What is in a statement is the statement itself, or is in one of its
blocks. -/
theorem mem_preorder {st t : Stmt} :
    t ∈ preorder st ↔ t = st ∨ ∃ body ∈ st.blocks, t ∈ preorderAll body := by
  rw [preorder_eq, List.mem_cons, List.mem_flatMap]

end Stmt

end CostAnalysis
