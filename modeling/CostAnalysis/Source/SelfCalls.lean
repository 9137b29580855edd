import CostAnalysis.Source.Program

/-!
# Self-calls

A procedure is recursive if a call to it stands in its own body.
-/

namespace CostAnalysis

/-- A call of a procedure to itself. -/
structure SelfCall where
  /-- The line on which the statement with the call starts; zero if that is
  unknown. -/
  line : Nat
  /-- The texts of the arguments. -/
  args : List String
deriving DecidableEq

/-- A recursive procedure and its self-calls. -/
structure RecursiveFunction where
  name : String
  calls : List SelfCall
deriving DecidableEq

/-- The calls to the given name in a block, in the order in which they are
written, an outer one before those in its arguments. -/
def Stmt.callsTo (name : String) (body : Block) : List (LineSpan × List Expr) :=
  (preorderAll body).flatMap fun s =>
    (s.calls.filter fun c => c.1 == name).map fun c => (s.lines, c.2)

/-- The calls of a procedure to itself. -/
def Function.selfCalls (f : Function) : List SelfCall :=
  (Stmt.callsTo f.name f.body).map fun (lines, args) =>
    { line := lines.first?.getD 0, args := Expr.compactTexts args }

/-- Whether a procedure calls itself. -/
def Function.isRecursive (f : Function) : Bool :=
  !f.selfCalls.isEmpty

/-- The recursive procedures of a program, in order. -/
def Program.recursiveFunctions (p : Program) : List RecursiveFunction :=
  (p.functions.filter Function.isRecursive).map fun f => ⟨f.name, f.selfCalls⟩

end CostAnalysis
