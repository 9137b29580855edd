import CostAnalysis.Cost.Basic
import CostAnalysis.Cost.Operations
import CostAnalysis.Note
import CostAnalysis.Settings.Basic

/-!
# Costs of statements

Every statement of a program gets a cost in terms of the variables around it.
An assignment costs one operation and those of its value, a return one
operation; a loop sums its body over a range; a branch pays its guard and one of
its arms.

The index of a sum is not the variable of the source but a name chosen by
nesting depth, so that the texts of two programs that differ in the names of
their loop variables agree.  A name that the procedure uses otherwise is never
chosen.

The result is one `NodeCost` for each statement, in the order in which the
statements are written.
-/

namespace CostAnalysis

/-- The rules of charging, as the settings fix them. -/
structure CostRules where
  /-- The probability that a guard holds. -/
  probability : Scalar
  /-- Whether the control of counting loops is charged. -/
  countLoopControl : Bool
  /-- The operations of one increment. -/
  incrementOperations : Int
  /-- Iterations of a loop with a condition outside any counting loop, on
  average. -/
  whileAverage : Formula
  /-- The same in the worst case. -/
  whileWorst : Formula

/-- The rules of some settings, or the first bound that is no formula. -/
def CostRules.ofSettings (s : CostSettings) : Except String CostRules := do
  let (average, worst) ← s.whileBounds
  return {
    probability := s.probability
    countLoopControl := s.countLoopControl
    incrementOperations := s.incrementStyle.operations
    whileAverage := average
    whileWorst := worst }

/-- The two kinds of loops. -/
inductive LoopKind where
  /-- Runs over a range of integers. -/
  | counted
  /-- Runs while a condition holds. -/
  | conditional
deriving DecidableEq

/-- The name of a kind in reports. -/
def LoopKind.tag : LoopKind → String
  | .counted => "for"
  | .conditional => "while"

/-- The range that a loop sums over. -/
structure LoopRange where
  /-- The index of the sum. -/
  index : String
  /-- The loop variable as written, where there is one. -/
  sourceVar? : Option String
  start : Formula
  stop : Formula
  /-- The end in the average case, where it is another one. -/
  averageStop? : Option Formula
  kind : LoopKind

/-- The end of the range in the average case. -/
def LoopRange.averageStop (r : LoopRange) : Formula :=
  r.averageStop?.getD r.stop

/-- What a statement is immediately inside of. -/
inductive Scope where
  | loop (range : LoopRange)
  /-- The arm for a guard that holds. -/
  | yes
  /-- The arm for a guard that fails. -/
  | no

/-- The range of a loop. -/
def Scope.range? : Scope → Option LoopRange
  | .loop r => some r
  | _ => none

/-- What is known at a statement: the names that are in use and what it is
inside of, the innermost first. -/
structure Surroundings where
  reserved : List String
  scopes : List Scope := []

namespace Surroundings

/-- The ranges of the enclosing loops, the innermost first. -/
def ranges (s : Surroundings) : List LoopRange :=
  s.scopes.filterMap Scope.range?

/-- The same place with one more scope around it. -/
def inside (s : Surroundings) (scope : Scope) : Surroundings :=
  { s with scopes := scope :: s.scopes }

/-- Names for indices, the first ones for outer loops. -/
def indexNames : List String :=
  ["i", "j", "k", "l", "p", "q", "r", "s"]

/-- The index of a loop at this place: the first name from its depth on that is
free. -/
def freshIndex (s : Surroundings) : String :=
  let depth := s.ranges.length
  let taken (name : String) : Bool :=
    s.reserved.contains name || s.ranges.any fun r => r.index == name
  match (indexNames.drop depth).find? fun name => !taken name with
  | some name => name
  | none => "v" ++ toString depth

/-- The index that stands for a variable of the source: that of the innermost
loop over it. -/
def rename (s : Surroundings) (name : String) : String :=
  match s.ranges.find? fun r => r.sourceVar? == some name with
  | some r => r.index
  | none => name

/-- The index of the innermost counting loop. -/
def countedIndex? (s : Surroundings) : Option String :=
  (s.ranges.find? fun r => r.kind == .counted).map LoopRange.index

end Surroundings

/-- The cost of one statement. -/
structure NodeCost where
  /-- The kind of the statement. -/
  typeName : String
  /-- The cost of the statement with all blocks in it. -/
  cost : Cost
  /-- The cost of the statement without the blocks in it. -/
  own : Cost
  range? : Option LoopRange
  lines : LineSpan
  /-- What the statement is inside of, the innermost first. -/
  scopes : List Scope
  /-- What could not be charged exactly. -/
  notes : List Note

namespace Stmt

/-- A loop bound as a formula; one that is no formula is kept as an opaque text
and noted. -/
def bound (s : Surroundings) (e : Expr) : Formula × List Note :=
  match e.formula? s.rename with
  | some f => (f, [])
  | none => (.unknown e.compactText, [⟨.unrecognizedExpression, e.compactText⟩])

/-- The range of a counting loop. -/
def countedRange (s : Surroundings) (var : String) (start stop : Expr) : LoopRange × List Note :=
  let (first, startNotes) := bound s start
  let (last, stopNotes) := bound s stop
  ({ index := s.freshIndex, sourceVar? := some var, start := first, stop := last,
     averageStop? := none, kind := .counted }, startNotes ++ stopNotes)

/-- The range of a loop with a condition.  Inside a counting loop it runs at
most as often as that one has done so far. -/
def conditionalRange (rules : CostRules) (s : Surroundings) : LoopRange :=
  let (average, worst) : Formula × Formula :=
    match s.countedIndex? with
    | some index => (.var index, .var index)
    | none => (rules.whileAverage, rules.whileWorst)
  { index := s.freshIndex, sourceVar? := none, start := Formula.one, stop := worst,
    averageStop? := if average == worst then none else some average, kind := .conditional }

/-- The control of a counting loop: one initialization, a test before each
iteration and at the end, and an increment after each iteration. -/
def loopControl (rules : CostRules) (range : LoopRange) : Cost :=
  if rules.countLoopControl then
    let length := range.stop.sub range.start
    let tests := length.add (Formula.int 2)
    let increments := (length.add Formula.one).scale (.ofInt rules.incrementOperations)
    Cost.uniform ((Formula.one.add tests).add increments)
  else Cost.zero

/-- A guarded body, repeated over a range, and the guard once more at the
end. -/
def repeated (guard body : Formula) (index : String) (start stop : Formula) : Formula :=
  (Formula.sum (guard.add body) index start stop).add guard

/-- The cost of a loop with a condition.  In the best case its guard fails at
once. -/
def conditionalCost (guard : Formula) (range : LoopRange) (body : Cost) : Cost where
  best := guard
  average := repeated guard body.average range.index range.start range.averageStop
  worst := repeated guard body.worst range.index range.start range.stop

/-- The entry of a statement without blocks. -/
def leaf (s : Surroundings) (typeName : String) (lines : LineSpan) (operations : Nat)
    (notes : List Note) : Cost × List NodeCost :=
  let cost := Cost.constant (Int.ofNat operations)
  (cost, [⟨typeName, cost, cost, none, lines, s.scopes, notes⟩])

mutual

/-- The cost of a statement and the entries for it and for all statements in
it. -/
def nodes (rules : CostRules) (s : Surroundings) : Stmt → Cost × List NodeCost
  | .assign l _ value => leaf s "Assign" l (1 + value.operations) []
  | .declare l _ => leaf s "VarDeclaration" l 1 []
  | .returns l _ => leaf s "Return" l 1 []
  | .evaluate l e => leaf s "ExprStmt" l e.operations []
  | .call l _ args => leaf s "CallStatement" l (1 + Expr.operationsAll args) []
  | .action l text =>
    leaf s "ActionStatement" l 1
      [⟨.unhandledNode, "'" ++ text ++ "' at line " ++ l.text ++ " charged one operation"⟩]
  | .forLoop l var start stop body =>
    let (range, notes) := countedRange s var start stop
    let (bodyCost, inner) := blockNodes rules (s.inside (.loop range)) Cost.zero body
    let own := loopControl rules range
    let cost := own.add (bodyCost.sumOver range.index range.start range.stop)
    (cost, ⟨"For", cost, own, some range, l, s.scopes, notes⟩ :: inner)
  | .whileLoop l cond body =>
    let guard := Formula.int (Int.ofNat cond.operations)
    let range := conditionalRange rules s
    let (bodyCost, inner) := blockNodes rules (s.inside (.loop range)) Cost.zero body
    let cost := conditionalCost guard range bodyCost
    (cost, ⟨"While", cost, Cost.uniform guard, some range, l, s.scopes, []⟩ :: inner)
  | .branch l cond yes (some no) =>
    let guard := Formula.int (Int.ofNat cond.operations)
    let (yesCost, yesNodes) := blockNodes rules (s.inside .yes) Cost.zero yes
    let (noCost, noNodes) := blockNodes rules (s.inside .no) Cost.zero no
    let cost := Cost.choice guard yesCost noCost rules.probability
    (cost, ⟨"If", cost, Cost.uniform guard, none, l, s.scopes, []⟩ :: (yesNodes ++ noNodes))
  | .branch l cond yes none =>
    let guard := Formula.int (Int.ofNat cond.operations)
    let (yesCost, yesNodes) := blockNodes rules (s.inside .yes) Cost.zero yes
    let cost := Cost.choice guard yesCost Cost.zero rules.probability
    (cost, ⟨"If", cost, Cost.uniform guard, none, l, s.scopes, []⟩ :: yesNodes)
termination_by structural st => st

/-- Adds to `acc` the costs of statements one after the other. -/
def blockNodes (rules : CostRules) (s : Surroundings) (acc : Cost) :
    List Stmt → Cost × List NodeCost
  | [] => (acc, [])
  | st :: sts =>
    let (cost, here) := nodes rules s st
    let (total, later) := blockNodes rules s (acc.add cost) sts
    (total, here ++ later)
termination_by structural sts => sts

end

/-- The variables of the counting loops in a block. -/
def loopVars (body : Block) : List String :=
  (preorderAll body).filterMap fun s =>
    match s with
    | .forLoop _ var _ _ _ => some var
    | _ => none

/-- The variables in the expressions of a block. -/
def namesIn (body : Block) : List String :=
  (preorderAll body).flatMap fun s => Expr.namesAll s.expressions

end Stmt

namespace Function

/-- The names that no index may take: the parameters and the variables that no
loop runs over. -/
def reservedNames (f : Function) : List String :=
  let loops := Stmt.loopVars f.body
  ((Stmt.namesIn f.body).filter fun name => !loops.contains name) ++ f.params.map Param.name

/-- The cost of a procedure and the entries for its statements. -/
def nodes (rules : CostRules) (f : Function) : Cost × List NodeCost :=
  Stmt.blockNodes rules { reserved := f.reservedNames } Cost.zero f.body

end Function

namespace Program

/-- The cost of all procedures and the entries for their statements. -/
def nodes (rules : CostRules) (p : Program) : Cost × List NodeCost :=
  p.functions.foldl
    (fun (total, entries) f =>
      let (cost, here) := f.nodes rules
      (total.add cost, entries ++ here))
    (Cost.zero, [])

end Program

end CostAnalysis
