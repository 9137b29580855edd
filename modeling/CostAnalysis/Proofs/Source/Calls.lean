import CostAnalysis.Proofs.Source.Trees
import CostAnalysis.Recurrence.Residual
import Mathlib.Data.List.Nodup

/-!
# Where a name is called

`Expr.Calls` and `Stmt.Calls` say that a call to a name stands in an expression
or in a statement, at any depth.  They only speak of the immediate parts of a
tree, and of no order and no list.

Calls are collected in two places, to report the self-calls of a procedure and
to find the procedures that it needs.  Both collect just these calls
(`Stmt.callsTo_eq_nil_iff`, `Stmt.mem_calledNames`).

**Two directions.**  That a collected call is there is an induction over the
parts of the tree that the list was collected from; that a call which is there
is collected is one over the derivation of `Expr.Calls`, or `Stmt.Calls`.  In
both the list of all statements stands in between, which visits each statement
once.
-/

namespace CostAnalysis

/-! ## Calls in expressions -/

namespace Expr

variable {name : String}

/-- A call to the name stands in the expression. -/
inductive Calls (name : String) : Expr → Prop
  | here (args : List Expr) : Calls name (.call name args)
  | inside {e c : Expr} (hc : c ∈ e.children) (h : Calls name c) : Calls name e

/-- The calls in a list of expressions are those of each of them, in their
order. -/
theorem callsAll_eq_flatMap (es : List Expr) : callsAll es = es.flatMap calls := by
  induction es with
  | nil => rfl
  | cons e es ih => rw [callsAll, ih, List.flatMap_cons]

/-- The calls in an expression are the expression itself and the calls in its
subexpressions. -/
theorem mem_calls {e : Expr} {args : List Expr} :
    (name, args) ∈ e.calls ↔ e = .call name args ∨ ∃ c ∈ e.children, (name, args) ∈ c.calls := by
  cases e with
  | call f as => simp [calls, children, callsAll_eq_flatMap, eq_comm]
  | array es => simp [calls, children, callsAll_eq_flatMap]
  | _ => simp [calls, children]

/-- **The collected calls are the calls that there are**: a name is called in an
expression just if it is collected with some arguments.  The other direction of
`mem_calls` is the induction on the derivation, which finds the call again in
the list of the part that holds it. -/
theorem calls_iff {e : Expr} : e.Calls name ↔ ∃ args, (name, args) ∈ e.calls := by
  constructor
  · intro h
    induction h with
    | here args => exact ⟨args, mem_calls.mpr (.inl rfl)⟩
    | inside hc _ ih =>
        obtain ⟨args, hargs⟩ := ih
        exact ⟨args, mem_calls.mpr (.inr ⟨_, hc, hargs⟩)⟩
  · rintro ⟨args, hargs⟩
    induction e using children_induction with
    | h e ih =>
      rcases mem_calls.mp hargs with rfl | ⟨c, hc, hargs⟩
      · exact .here args
      · exact .inside hc (ih c hc hargs)

end Expr

/-! ## Calls in statements -/

namespace Stmt

variable {name : String}

/-- A call to the name stands in the statement: it is a call statement, or the
call is in an expression of it or in a statement of its blocks. -/
inductive Calls (name : String) : Stmt → Prop
  | statement (l : LineSpan) (args : List Expr) : Calls name (.call l name args)
  | expression {st : Stmt} {e : Expr} (he : e ∈ st.expressions) (h : e.Calls name) : Calls name st
  | block {st t : Stmt} {body : Block} (hbody : body ∈ st.blocks) (ht : t ∈ body)
      (h : Calls name t) : Calls name st

/-- The calls of a statement itself. -/
theorem mem_calls {st : Stmt} {args : List Expr} :
    (name, args) ∈ st.calls ↔
      (∃ l, st = .call l name args) ∨ ∃ e ∈ st.expressions, (name, args) ∈ e.calls := by
  unfold calls
  rw [List.mem_append, Expr.callsAll_eq_flatMap, List.mem_flatMap]
  refine or_congr_left ?_
  cases st with
  | call l f as =>
      simp only [List.mem_singleton, Prod.mk.injEq, call.injEq, exists_and_right, exists_eq',
        true_and]
      exact and_congr eq_comm eq_comm
  | _ => simp

/-- The same for a statement: the call is collected at the statement at which it
stands, and this is found on the walk. -/
theorem calls_iff {st : Stmt} :
    st.Calls name ↔ ∃ t ∈ preorder st, ∃ args, (name, args) ∈ t.calls := by
  constructor
  · intro h
    induction h with
    | statement l args =>
        exact ⟨_, mem_preorder.mpr (.inl rfl), args, mem_calls.mpr (.inl ⟨l, rfl⟩)⟩
    | expression he h =>
        obtain ⟨args, hargs⟩ := Expr.calls_iff.mp h
        exact ⟨_, mem_preorder.mpr (.inl rfl), args, mem_calls.mpr (.inr ⟨_, he, hargs⟩)⟩
    | block hbody ht _ ih =>
        obtain ⟨u, hu, hcall⟩ := ih
        have hin : u ∈ preorderAll _ := mem_preorderAll.mpr ⟨_, ht, hu⟩
        exact ⟨u, mem_preorder.mpr (.inr ⟨_, hbody, hin⟩), hcall⟩
  -- from a listed statement to the derivation: through the blocks around it
  · rintro ⟨t, ht, args, hargs⟩
    induction st using blocks_induction with
    | h st ih =>
      rcases mem_preorder.mp ht with rfl | ⟨body, hbody, ht⟩
      · rcases mem_calls.mp hargs with ⟨l, rfl⟩ | ⟨e, he, hargs⟩
        · exact .statement l args
        · exact .expression he (Expr.calls_iff.mpr ⟨args, hargs⟩)
      · obtain ⟨u, hu, ht⟩ := mem_preorderAll.mp ht
        exact .block hbody hu (ih body hbody u hu ht)

/-- A call to the name stands in the block. -/
def CalledIn (name : String) (body : Block) : Prop :=
  ∃ st ∈ body, st.Calls name

/-- The same for a block. -/
theorem calledIn_iff {body : Block} :
    CalledIn name body ↔ ∃ t ∈ preorderAll body, ∃ args, (name, args) ∈ t.calls := by
  constructor
  · rintro ⟨st, hst, h⟩
    obtain ⟨t, ht, hcall⟩ := calls_iff.mp h
    exact ⟨t, mem_preorderAll.mpr ⟨st, hst, ht⟩, hcall⟩
  · rintro ⟨t, ht, hcall⟩
    obtain ⟨st, hst, ht⟩ := mem_preorderAll.mp ht
    exact ⟨st, hst, calls_iff.mpr ⟨t, ht, hcall⟩⟩

/-- **Self-calls are found just where there are some.** -/
theorem callsTo_eq_nil_iff {body : Block} : callsTo name body = [] ↔ ¬ CalledIn name body := by
  rw [calledIn_iff, callsTo, List.flatMap_eq_nil_iff]
  push Not
  refine forall₂_congr fun t _ => ?_
  rw [List.map_eq_nil_iff, List.filter_eq_nil_iff]
  constructor
  · intro h args hargs
    exact h _ hargs (beq_self_eq_true name)
  · rintro h ⟨f, args⟩ hargs hf
    obtain rfl := eq_of_beq hf
    exact h args hargs

/-- **The called names are those that are called.** -/
theorem mem_calledNames {body : Block} : name ∈ calledNames body ↔ CalledIn name body := by
  rw [calledIn_iff, calledNames, List.mem_flatMap]
  simp

end Stmt

/-- A procedure reports no self-calls just if its own name is not called in it
at any depth. -/
theorem Function.selfCalls_eq_nil_iff {f : Function} :
    f.selfCalls = [] ↔ ¬ Stmt.CalledIn f.name f.body := by
  rw [selfCalls, List.map_eq_nil_iff, Stmt.callsTo_eq_nil_iff]

/-! ## The procedure of a name -/

namespace Program

variable {p : Program} {name : String} {f g : Function}

theorem name_of_function? (h : p.function? name = some g) : g.name = name :=
  eq_of_beq (List.find?_some (p := fun f : Function => f.name == name) h)

theorem mem_of_function? (h : p.function? name = some g) : g ∈ p.functions :=
  List.mem_of_find?_eq_some h

end Program

end CostAnalysis
