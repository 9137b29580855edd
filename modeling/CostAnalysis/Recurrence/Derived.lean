import CostAnalysis.Analysis.Failure
import CostAnalysis.Recurrence.Basic
import CostAnalysis.Recurrence.Residual
import CostAnalysis.Recurrence.Work
import CostAnalysis.Cost.Solution

/-!
# Recurrences of procedures

The recurrence of a recursive procedure is read off its body.  Each self-call is
a term: it divides the size if an argument is divided by a constant, possibly
through a variable that holds a midpoint, and reduces it if an argument is a
parameter minus a constant.  Of the two arms of a branch only the one with more
calls counts.  The work is the cost of what is left without the self-calls.
-/

namespace CostAnalysis

/-- How the arguments of a self-call reduce the size. -/
inductive Reduction where
  | divide (divisor : Nat)
  | subtract (amount : Nat)
  /-- No reduction was recognized in the arguments. -/
  | unknown (args : String)
deriving DecidableEq

/-- A literal as a machine word of 32 bits. -/
def Literal.word? : Literal → Option Nat
  | .int z => if Numeric.fitsUnsigned 32 z then some z.toNat else none
  | _ => none

namespace Expr

/-- Whether an operation divides by a constant that is at least two; its value
is the constant, where it fits a machine word. -/
def divisor? (op : BinaryOp) (right : Expr) : Option (Option Nat) :=
  match op, right with
  | .div, .literal (.int z) => if 2 ≤ z then some (Literal.int z).word? else none
  | .intDiv, .literal (.int z) => if 2 ≤ z then some (Literal.int z).word? else none
  | _, _ => none

mutual

/-- The constant of the first division by a constant in an expression, an outer
one before those inside it. -/
def constantDivisor? : Expr → Option Nat
  | .var _ => none
  | .literal _ => none
  | .binary op a b =>
    match divisor? op b with
    | some value => value
    | none => (constantDivisor? a).or (constantDivisor? b)
  | .unary _ a => constantDivisor? a
  | .compare _ a b => (constantDivisor? a).or (constantDivisor? b)
  | .call _ args => firstConstantDivisor? args
  | .index a i => (constantDivisor? a).or (constantDivisor? i)
  | .array es => firstConstantDivisor? es
termination_by structural e => e

/-- The same for the first expression of a list that has one. -/
def firstConstantDivisor? : List Expr → Option Nat
  | [] => none
  | e :: es => (constantDivisor? e).or (firstConstantDivisor? es)
termination_by structural es => es

end

/-- The amount by which an argument reduces a parameter of the procedure. -/
def shift? (f : Function) : Expr → Option Nat
  | .binary .sub (.var name) (.literal (.int z)) =>
    if f.hasParam name && 1 ≤ z then (Literal.int z).word? else none
  | _ => none

end Expr

namespace Stmt

/-- The variables of a block that are assigned a division by a constant, with
the constant; the last assignment first. -/
def midpoints (body : Block) : List (String × Nat) :=
  ((preorderAll body).filterMap fun s =>
    match s with
    | .assign _ (.var name) value => value.constantDivisor?.map fun d => (name, d)
    | _ => none).reverse

/-- The reduction of a call with the given arguments. -/
def reductionOf (f : Function) (midpoints : List (String × Nat)) (args : List Expr) : Reduction :=
  let divisor? := args.findSome? fun arg =>
    arg.constantDivisor?.or (arg.names.findSome? fun name => midpoints.lookup name)
  match divisor? with
  | some d => .divide d
  | none =>
    match args.findSome? (Expr.shift? f) with
    | some k => .subtract k
    | none => .unknown (",".intercalate (Expr.compactTexts args))

/-- The reductions of the self-calls of a statement itself. -/
def ownReductions (f : Function) (midpoints : List (String × Nat)) (s : Stmt) : List Reduction :=
  (s.calls.filter fun c => c.1 == f.name).map fun c => reductionOf f midpoints c.2

/-- The longer of two lists, the first one if they are equally long. -/
def busier (xs ys : List α) : List α :=
  if xs.length < ys.length then ys else xs

mutual

/-- The reductions of the self-calls of a statement and of those in it; of the
arms of a branch, only the busier one counts. -/
def reductions (f : Function) (midpoints : List (String × Nat)) : Stmt → List Reduction
  | .forLoop l v s e body =>
    ownReductions f midpoints (.forLoop l v s e body) ++ reductionsAll f midpoints body
  | .whileLoop l c body =>
    ownReductions f midpoints (.whileLoop l c body) ++ reductionsAll f midpoints body
  | .branch l c yes (some no) =>
    ownReductions f midpoints (.branch l c yes (some no)) ++
      busier (reductionsAll f midpoints yes) (reductionsAll f midpoints no)
  | .branch l c yes none =>
    ownReductions f midpoints (.branch l c yes none) ++ reductionsAll f midpoints yes
  | .assign l t v => ownReductions f midpoints (.assign l t v)
  | .declare l ns => ownReductions f midpoints (.declare l ns)
  | .returns l v => ownReductions f midpoints (.returns l v)
  | .evaluate l e => ownReductions f midpoints (.evaluate l e)
  | .call l n args => ownReductions f midpoints (.call l n args)
  | .action l t => ownReductions f midpoints (.action l t)
termination_by structural s => s

/-- The reductions of the self-calls of a block. -/
def reductionsAll (f : Function) (midpoints : List (String × Nat)) : List Stmt → List Reduction
  | [] => []
  | s :: ss => reductions f midpoints s ++ reductionsAll f midpoints ss
termination_by structural ss => ss

end

/-- Whether a statement returns. -/
def isReturn : Stmt → Bool
  | .returns _ _ => true
  | _ => false

/-- The condition of a branch whose first arm returns without calling the given
name. -/
def baseCase? (name : String) : Stmt → Option String
  | .branch _ cond yes _ =>
    if yes.any isReturn && !(calledNames yes).contains name then some cond.compactText else none
  | _ => none

end Stmt

namespace Function

/-- The reductions of the self-calls of a procedure. -/
def reductions (f : Function) : List Reduction :=
  Stmt.reductionsAll f (Stmt.midpoints f.body) f.body

/-- The conditions under which a procedure returns without recursion. -/
def baseCases (f : Function) : List String :=
  (Stmt.preorderAll f.body).filterMap (Stmt.baseCase? f.name)

end Function

namespace Reduction

/-- The term of a recognized reduction. -/
def term? : Reduction → Option RecursiveTerm
  | .divide d => some { coefficient := 1, kind := .division, amount := d }
  | .subtract k => some { coefficient := 1, kind := .subtraction, amount := k }
  | .unknown _ => none

/-- The text of a call that was not recognized. -/
def unknown? : Reduction → Option String
  | .unknown args => some ("T(" ++ args ++ ")")
  | _ => none

/-- The merged terms of a list of reductions. -/
def terms (rs : List Reduction) : List RecursiveTerm :=
  (rs.filterMap term?).foldl (fun ts t => RecursiveTerm.merge t ts) []

end Reduction

/-- The recurrence of a procedure. -/
structure DerivedRecurrence where
  function : String
  text : String
  terms : List RecursiveTerm
  work : Work
  baseCases : List String
  /-- The procedures whose cost is part of the work. -/
  auxiliaries : List String
  /-- The solution of the work. -/
  residual : Solution
  /-- Each note once. -/
  notes : List Note

namespace DerivedRecurrence

/-- Whether every self-call was recognized as a reduction. -/
def isExact (d : DerivedRecurrence) : Bool :=
  d.notes.all fun n => n.kind != .unclassifiableRecurrence

/-- The work that a cost amounts to. -/
def workOf (worst : Formula) : Work :=
  let poly := worst.simplify.poly
  if poly.isZero then Work.constant else Work.ofGrowth (Growth.ofPoly poly.freeVars poly)

/-- The recurrence of the first procedure of the given name. -/
def ofProgram (rules : CostRules) (p : Program) (name source : String) :
    Except Failure DerivedRecurrence :=
  match p.function? name with
  | none => .error (.unknownFunction name)
  | some f =>
    let reductions := f.reductions
    let terms := Reduction.terms reductions
    let unknown := reductions.filterMap Reduction.unknown?
    let costs := CostReport.ofProgram rules (p.residual f) source
    let work := workOf costs.total.worst
    let callNotes : List Note :=
      if unknown.isEmpty then []
      else [⟨.unclassifiableRecurrence,
        name ++ ": no size reduction recognized in " ++ ", ".intercalate unknown⟩]
    let workNotes : List Note :=
      if work.known then []
      else [⟨.unrecognizedExpression, name ++ ": residual cost " ++ work.text⟩]
    .ok {
      function := name
      text := "T(n) = " ++ " + ".intercalate (terms.map RecursiveTerm.text ++ unknown) ++ " + " ++
        work.text
      terms
      work
      baseCases := f.baseCases
      auxiliaries := p.auxiliaries f
      residual := Solution.ofCost costs.total
      notes := Note.logOf (callNotes ++ costs.notes ++ workNotes) }

end DerivedRecurrence

end CostAnalysis
