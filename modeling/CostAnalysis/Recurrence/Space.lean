import CostAnalysis.Recurrence.Basic
import CostAnalysis.Source.Program
import CostAnalysis.Algebra.Growth

/-!
# Space of recursive procedures

The space of a recursive procedure is the depth of its recursion, each call with
a frame of constant size, together with arrays that are filled in loops.
-/

namespace CostAnalysis

/-- The space that a recursive procedure needs. -/
structure SpaceUse where
  depth : Growth
  auxiliary : Growth
  explanation : String

namespace Stmt

/-- The array whose element a statement assigns, unless it is a parameter. -/
def localArray? (f : Function) : Stmt → Option String
  | .assign _ (.index a i) _ =>
    match (Expr.index a i).baseName? with
    | some name => if f.hasParam name then none else some name
    | none => none
  | _ => none

mutual

/-- The first local array that is filled in a loop of a statement. -/
def loopArray? (f : Function) (inLoop : Bool) : Stmt → Option String
  | .forLoop _ _ _ _ body => firstLoopArray? f true body
  | .whileLoop _ _ body => firstLoopArray? f true body
  | .branch _ _ yes (some no) => (firstLoopArray? f inLoop yes).or (firstLoopArray? f inLoop no)
  | .branch _ _ yes none => firstLoopArray? f inLoop yes
  | .assign l target value =>
    if inLoop then localArray? f (.assign l target value) else none
  | .declare _ _ => none
  | .returns _ _ => none
  | .evaluate _ _ => none
  | .call _ _ _ => none
  | .action _ _ => none
termination_by structural s => s

/-- The first local array that is filled in a loop of a block. -/
def firstLoopArray? (f : Function) (inLoop : Bool) : List Stmt → Option String
  | [] => none
  | s :: ss => (loopArray? f inLoop s).or (firstLoopArray? f inLoop ss)
termination_by structural ss => ss

end

end Stmt

/-- The first local array that a procedure fills in a loop. -/
def Function.loopArray? (f : Function) : Option String :=
  Stmt.firstLoopArray? f false f.body

namespace SpaceUse

/-- The class of growth of the size. -/
def linear : Growth :=
  Growth.polylog "n" 1 0

/-- The depth of the recursion and the reason for it. -/
def depthOf : List RecursiveTerm → Growth × String
  | [] => (linear, "no size reduction was recognized; a linear stack is assumed")
  | t :: _ =>
    if t.isDivision then
      (Growth.polylog "n" 0 1,
        "the problem size divides at every call, so the stack is logarithmic")
    else
      (linear, "the problem size shrinks by a constant per call, so the stack is linear")

/-- The space of a recurrence whose procedure and helpers are given. -/
def of (terms : List RecursiveTerm) (functions : List Function) : SpaceUse :=
  let (depth, reason) := depthOf terms
  match functions.findSome? fun f => f.loopArray?.map fun array => (f.name, array) with
  | some (name, array) =>
    { depth
      auxiliary := linear
      explanation := reason ++ "; " ++ name ++ " fills array " ++ array ++ " inside a loop" }
  | none => { depth, auxiliary := Growth.constant, explanation := reason }

/-- The greater of depth and auxiliary space. -/
def total (s : SpaceUse) : Growth :=
  if s.depth.cmp s.auxiliary == .lt then s.auxiliary else s.depth

end SpaceUse

end CostAnalysis
