import CostAnalysis.Cost.Operations
import CostAnalysis.Proofs.Cost.Expected
import CostAnalysis.Proofs.Source.Calls

/-!
# What is left of a block without its calls to a name

The work of a recursive procedure is what its body costs without the calls of
the procedure to itself.  So that the work is neither too large nor too small,
just these calls have to go (`Stmt.withoutCallsAll_removes_calls`): none is
left, a block without any stays as it is, and no other statement is lost, moved
or made more expensive.

**What is kept.**  A call statement to the name goes, and nothing else: every
other statement stays with its lines, its kind, its expressions and its blocks,
the calls in these removed (`Stmt.Kept`).  Since that holds in the blocks again,
removing calls commutes with listing the statements of a block at all depths
(`Stmt.preorderAll_withoutCallsAll`), and what is said of the kept statements is
said along that list.
-/

namespace CostAnalysis

/-! ## Expressions

What a call to the name is replaced by is no call to it, and its arguments are
gone.  Everything around it stays as it is. -/

namespace Expr

variable (name : String)

/-- A list of expressions is treated expression by expression. -/
theorem withoutCallsAll_eq_map (es : List Expr) :
    withoutCallsAll name es = es.map (withoutCalls name) := by
  induction es with
  | nil => rfl
  | cons e es ih => rw [withoutCallsAll, ih, List.map_cons]

theorem withoutCalls_self (args : List Expr) : withoutCalls name (.call name args) = int 0 := by
  rw [withoutCalls, if_pos (beq_self_eq_true name)]

variable {name}

/-- Any other call stays, and the name is removed from its arguments. -/
theorem withoutCalls_call {f : String} (hf : f ≠ name) (args : List Expr) :
    withoutCalls name (.call f args) = .call f (args.map (withoutCalls name)) := by
  rw [withoutCalls, if_neg (by simpa using hf), withoutCallsAll_eq_map]

/-- An expression that is no call to the name keeps its subexpressions, without
the calls in them. -/
theorem children_withoutCalls {e : Expr} (he : ∀ args, e ≠ .call name args) :
    (e.withoutCalls name).children = e.children.map (withoutCalls name) := by
  cases e with
  | call f args =>
      have hf : f ≠ name := fun hf => he args (by rw [hf])
      rw [withoutCalls_call hf, children, children]
  | array es => rw [withoutCalls, children, children, withoutCallsAll_eq_map]
  | _ => rfl

/-- What is left is never a call to the name itself. -/
theorem withoutCalls_ne_call (e : Expr) (args : List Expr) :
    e.withoutCalls name ≠ .call name args := by
  intro h
  cases e with
  | call f as =>
      by_cases hf : f = name
      · rw [hf, withoutCalls_self] at h
        cases h
      · rw [withoutCalls_call hf] at h
        cases h
        exact hf rfl
  | _ => cases h

/-- **Nothing is left** of the calls to the name, at any depth.  The induction
is on the immediate parts, as a call stands at the root or in one of them. -/
theorem not_calls_withoutCalls (e : Expr) : ¬ (e.withoutCalls name).Calls name := by
  induction e using children_induction with
  | h e ih =>
    intro h
    by_cases hself : ∃ args, e = .call name args
    · obtain ⟨args, rfl⟩ := hself
      rw [withoutCalls_self] at h
      cases h with
      | inside hc _ => cases hc
    · generalize hkept : e.withoutCalls name = kept at h
      cases h with
      | here args => exact withoutCalls_ne_call e args hkept
      | inside hc h =>
          rw [← hkept, children_withoutCalls fun args he => hself ⟨args, he⟩] at hc
          obtain ⟨child, hchild, rfl⟩ := List.mem_map.mp hc
          exact ih child hchild h

/-- If nothing changes in any expression of a list, the list does not change. -/
theorem map_withoutCalls {es : List Expr} (h : ∀ e ∈ es, e.withoutCalls name = e) :
    es.map (withoutCalls name) = es :=
  (List.map_congr_left h).trans (List.map_id' es)

theorem withoutCalls_of_not_calls {e : Expr} (he : ¬ e.Calls name) : e.withoutCalls name = e := by
  induction e using children_induction with
  | h e ih =>
    have hc : ∀ c ∈ e.children, c.withoutCalls name = c :=
      fun c hc => ih c hc fun h => he (.inside hc h)
    cases e with
    | call f args =>
        have hf : f ≠ name := by
          rintro rfl
          exact he (.here args)
        have hargs : args.map (withoutCalls name) = args := map_withoutCalls hc
        rw [withoutCalls_call hf, hargs]
    | array es =>
        have hes : es.map (withoutCalls name) = es := map_withoutCalls hc
        rw [withoutCalls, withoutCallsAll_eq_map, hes]
    | _ => simp_all [withoutCalls, children]

/-- Removing calls takes no operations. -/
theorem operations_withoutCalls_le (e : Expr) :
    (e.withoutCalls name).operations ≤ e.operations := by
  induction e using children_induction with
  | h e ih =>
    cases e with
    | call f args =>
        by_cases hf : f = name
        · rw [hf, withoutCalls_self]
          exact Nat.zero_le _
        · rw [withoutCalls_call hf, operations, operations, operationsAll_eq_sum,
            operationsAll_eq_sum, List.map_map]
          exact Nat.add_le_add_left (List.sum_le_sum ih) 1
    | array es =>
        rw [withoutCalls, withoutCallsAll_eq_map, operations, operations, operationsAll_eq_sum,
          operationsAll_eq_sum, List.map_map]
        exact List.sum_le_sum ih
    | _ =>
        simp only [children, List.forall_mem_cons, withoutCalls, operations] at ih ⊢
        omega

end Expr

/-! ## Statements -/

namespace Stmt

variable {name : String}

/-- Whether a statement is a call to the name. -/
def isCallTo (name : String) : Stmt → Bool
  | .call _ f _ => f == name
  | _ => false

/-- The second statement is what is kept of the first one: the same statement on
the same lines, without the calls in its expressions and in its blocks. -/
structure Kept (name : String) (st kept : Stmt) : Prop where
  lines_eq : kept.lines = st.lines
  typeName_eq : kept.typeName = st.typeName
  expressions_eq : kept.expressions = st.expressions.map (Expr.withoutCalls name)
  blocks_eq : kept.blocks = st.blocks.map (withoutCallsAll name)

/-- A block is treated statement by statement, and what is removed leaves
nothing behind. -/
theorem withoutCallsAll_eq_filterMap (body : Block) :
    withoutCallsAll name body = body.filterMap (withoutCalls? name) := by
  induction body with
  | nil => rfl
  | cons st sts ih =>
      rw [withoutCallsAll, ih, List.filterMap_cons]
      cases withoutCalls? name st <;> rfl

/-- A call statement to the name goes, any other statement is kept. -/
theorem withoutCalls?_cases (name : String) (st : Stmt) :
    st.isCallTo name = true ∧ st.blocks = [] ∧ withoutCalls? name st = none ∨
      st.isCallTo name = false ∧ ∃ kept, withoutCalls? name st = some kept ∧ Kept name st kept ∧
        kept.isCallTo name = false := by
  cases st with
  | call l f args =>
      by_cases hf : f = name
      · exact .inl ⟨by simp [isCallTo, hf], rfl, by simp [withoutCalls?, hf]⟩
      · refine .inr ⟨by simp [isCallTo, hf], .call l f (Expr.withoutCallsAll name args), ?_, ?_, ?_⟩
        · simp [withoutCalls?, hf]
        · exact ⟨rfl, rfl, Expr.withoutCallsAll_eq_map name args, rfl⟩
        · simp [isCallTo, hf]
  | branch l cond yes no =>
      cases no with
      | none => exact .inr ⟨rfl, _, rfl, ⟨rfl, rfl, rfl, rfl⟩, rfl⟩
      | some no => exact .inr ⟨rfl, _, rfl, ⟨rfl, rfl, rfl, rfl⟩, rfl⟩
  | returns l value => exact .inr ⟨rfl, _, rfl, ⟨rfl, rfl, by cases value <;> rfl, rfl⟩, rfl⟩
  | _ => exact .inr ⟨rfl, _, rfl, ⟨rfl, rfl, rfl, rfl⟩, rfl⟩

/-- What is kept calls the name no more by itself. -/
theorem not_mem_calls_of_withoutCalls? {st kept : Stmt} (h : withoutCalls? name st = some kept)
    (args : List Expr) : (name, args) ∉ kept.calls := by
  rcases withoutCalls?_cases name st with ⟨-, -, hnone⟩ | ⟨-, kept', hsome, hkept, hcall⟩
  · rw [hnone] at h
    cases h
  · obtain rfl := Option.some.inj (hsome.symm.trans h)
    rintro hargs
    rcases mem_calls.mp hargs with ⟨l, rfl⟩ | ⟨e, he, hargs⟩
    · simp [isCallTo] at hcall
    · rw [hkept.expressions_eq] at he
      obtain ⟨e, -, rfl⟩ := List.mem_map.mp he
      exact Expr.not_calls_withoutCalls e (Expr.calls_iff.mpr ⟨args, hargs⟩)

/-! ### Along the list of all statements -/

/-- If removing commutes with listing for each statement of a block, it does for
the block. -/
theorem flatMap_filterMap_preorder {body : Block}
    (h : ∀ st ∈ body, (withoutCalls? name st).toList.flatMap preorder =
      (preorder st).filterMap (withoutCalls? name)) :
    preorderAll (withoutCallsAll name body) =
      (preorderAll body).filterMap (withoutCalls? name) := by
  rw [withoutCallsAll_eq_filterMap, preorderAll_eq_flatMap, preorderAll_eq_flatMap,
    List.filterMap_flatMap, List.filterMap_eq_flatMap_toList, List.flatMap_assoc]
  exact List.flatMap_congr h

/-- What is listed in a statement after removing is what was listed before, with
each statement treated on its own. -/
theorem preorder_withoutCalls? (st : Stmt) : (withoutCalls? name st).toList.flatMap preorder =
    (preorder st).filterMap (withoutCalls? name) := by
  induction st using blocks_induction with
  | h st ih =>
    rw [preorder_eq st, List.filterMap_cons]
    rcases withoutCalls?_cases name st with ⟨-, hblocks, hnone⟩ | ⟨-, kept, hsome, hkept, -⟩
    · rw [hnone, hblocks]
      rfl
    · rw [hsome, Option.toList_some, List.flatMap_singleton, preorder_eq kept, hkept.blocks_eq,
        List.flatMap_map, List.filterMap_flatMap]
      exact congrArg (kept :: ·) (List.flatMap_congr fun body hbody =>
        flatMap_filterMap_preorder (ih body hbody))

/-- **Removing calls commutes with listing all statements.** -/
theorem preorderAll_withoutCallsAll (body : Block) :
    preorderAll (withoutCallsAll name body) = (preorderAll body).filterMap (withoutCalls? name) :=
  flatMap_filterMap_preorder fun st _ => preorder_withoutCalls? st

/-- The statements of a list that are no calls to the name are those that are
left, each kept as it was. -/
theorem forall₂_kept (sts : List Stmt) :
    List.Forall₂ (Kept name) (sts.filter fun st => !st.isCallTo name)
      (sts.filterMap (withoutCalls? name)) := by
  induction sts with
  | nil => exact .nil
  | cons st sts ih =>
      rcases withoutCalls?_cases name st with ⟨hcall, -, hnone⟩ | ⟨hcall, kept, hsome, hkept, -⟩
      · rwa [List.filter_cons_of_neg (by simp [hcall]), List.filterMap_cons_none hnone]
      · rw [List.filter_cons_of_pos (by simp [hcall]), List.filterMap_cons_some hsome]
        exact .cons hkept ih

/-- No call to the name is left in a block. -/
theorem not_calledIn_withoutCallsAll (name : String) (body : Block) :
    ¬ CalledIn name (withoutCallsAll name body) := by
  rw [calledIn_iff, preorderAll_withoutCallsAll]
  rintro ⟨kept, hkept, args, hargs⟩
  obtain ⟨st, -, hst⟩ := List.mem_filterMap.mp hkept
  exact not_mem_calls_of_withoutCalls? hst args hargs

/-! ### Statements without calls -/

/-- A block of which every statement stays as it is stays as it is. -/
theorem withoutCallsAll_of_forall {body : Block}
    (h : ∀ st ∈ body, withoutCalls? name st = some st) : withoutCallsAll name body = body := by
  rw [withoutCallsAll_eq_filterMap, List.filterMap_congr h, List.filterMap_some]

/-- A statement without calls to the name stays as it is: so do its expressions,
and by induction its blocks. -/
theorem withoutCalls?_of_not_calls {st : Stmt} (hst : ¬ st.Calls name) :
    withoutCalls? name st = some st := by
  induction st using blocks_induction with
  | h st ih =>
    have hexpr : ∀ e ∈ st.expressions, e.withoutCalls name = e :=
      fun e he => Expr.withoutCalls_of_not_calls fun h => hst (.expression he h)
    have hblock : ∀ body ∈ st.blocks, withoutCallsAll name body = body := fun body hbody =>
      withoutCallsAll_of_forall fun t ht => ih body hbody t ht fun h => hst (.block hbody ht h)
    cases st with
    | call l f args =>
        have hf : f ≠ name := by
          rintro rfl
          exact hst (.statement l args)
        have hargs : args.map (Expr.withoutCalls name) = args := Expr.map_withoutCalls hexpr
        rw [withoutCalls?, if_neg (by simpa using hf), Expr.withoutCallsAll_eq_map, hargs]
    | branch l cond yes no =>
        cases no <;> simp_all [withoutCalls?, expressions, blocks]
    | returns l value =>
        cases value <;> simp_all [withoutCalls?, expressions]
    | _ => simp_all [withoutCalls?, expressions, blocks]

theorem withoutCallsAll_of_not_calledIn {body : Block} (h : ¬ CalledIn name body) :
    withoutCallsAll name body = body :=
  withoutCallsAll_of_forall fun st hst => withoutCalls?_of_not_calls fun hcall => h ⟨st, hst, hcall⟩

/-- **Just the calls to the name are removed.**  None is left, so that a
procedure of that name with this body has no self-calls; a block stays as it is
exactly if there was none, and so does what is left; the other statements, at
every depth, are kept on their lines and in their order; and no expression gets
more operations. -/
theorem withoutCallsAll_removes_calls (name : String) (body : Block) :
    ¬ CalledIn name (withoutCallsAll name body) ∧
    (∀ params lines,
      (⟨name, params, withoutCallsAll name body, lines⟩ : Function).selfCalls = []) ∧
    (withoutCallsAll name body = body ↔ ¬ CalledIn name body) ∧
    withoutCallsAll name (withoutCallsAll name body) = withoutCallsAll name body ∧
    List.Forall₂ (Kept name) ((preorderAll body).filter fun st => !st.isCallTo name)
      (preorderAll (withoutCallsAll name body)) ∧
    ∀ e : Expr, (e.withoutCalls name).operations ≤ e.operations := by
  have hnone := not_calledIn_withoutCallsAll name body
  refine ⟨hnone, fun params lines => Function.selfCalls_eq_nil_iff.mpr hnone, ⟨fun h => ?_, ?_⟩,
    withoutCallsAll_of_not_calledIn hnone, ?_, Expr.operations_withoutCalls_le⟩
  · rw [← h]
    exact hnone
  · exact withoutCallsAll_of_not_calledIn
  · rw [preorderAll_withoutCallsAll]
    exact forall₂_kept _

end Stmt

end CostAnalysis
