import CostAnalysis.Cost.Nodes
import CostAnalysis.Algebra.Assoc
import CostAnalysis.Text.Blank

/-!
# Costs of lines

What a statement costs by itself is charged to the line it starts on, as often
as the loops around it run and weighted by the probability of the branches
around it.
-/

namespace CostAnalysis

/-- The cost that is charged to one line. -/
structure LineCost where
  number : Nat
  /-- The text of the line without surrounding blanks. -/
  code : String
  /-- The kinds of the statements that start on the line. -/
  operations : List String
  cost : Cost

/-- The cost of something once per run of a scope, as it adds to the cost of the
scope.  In the best case no arm is taken and no loop with a condition runs. -/
def Scope.charge (probability : Scalar) (cost : Cost) : Scope → Cost
  | .loop r =>
    if r.kind = .counted then cost.sumOver r.index r.start r.stop
    else
      { best := Formula.zero
        average := Formula.sum cost.average r.index r.start r.averageStop
        worst := Formula.sum cost.worst r.index r.start r.stop }
  | .yes =>
    { best := Formula.zero, average := cost.average.scale probability, worst := cost.worst }
  | .no =>
    { best := Formula.zero, average := cost.average.scale (1 - probability), worst := cost.worst }

namespace NodeCost

/-- The statement's own cost per run of what it is inside of.  The guard of a
loop is evaluated once per iteration and once at the end. -/
def ownPerRun (n : NodeCost) : Cost :=
  match n.range? with
  | some r =>
    if r.kind = .conditional then
      let again (guard stop : Formula) : Formula :=
        (Formula.sum guard r.index r.start stop).add guard
      { best := n.own.best
        average := again n.own.average r.averageStop
        worst := again n.own.worst r.stop }
    else n.own
  | none => n.own

/-- The statement's own cost over the whole run of the procedure. -/
def charged (probability : Scalar) (n : NodeCost) : Cost :=
  n.scopes.foldl (fun cost scope => scope.charge probability cost) n.ownPerRun

end NodeCost

namespace LineCost

/-- The lines of a text, which line feeds separate. -/
def sourceLines (source : String) : List (List Char) :=
  Text.splitWhere (· == '\n') source.toList

/-- The text of a line without surrounding blanks. -/
def codeOf (lines : List (List Char)) (number : Nat) : String :=
  match lines[number - 1]? with
  | some line => String.ofList (Text.trim line)
  | none => ""

/-- Adds a charge to the line it belongs to. -/
def record (lines : List (List Char)) (typeName : String) (charge : Cost) (number : Nat)
    (table : List (Nat × LineCost)) : List (Nat × LineCost) :=
  Assoc.alter number
    (fun entry? =>
      let entry := entry?.getD ⟨number, codeOf lines number, [], Cost.zero⟩
      some { entry with
        cost := entry.cost.add charge
        operations := entry.operations ++ [typeName] })
    table

/-- Adds the charge of a statement to the line on which it starts, where that is
known. -/
def recordNode (probability : Scalar) (lines : List (List Char)) (table : List (Nat × LineCost))
    (n : NodeCost) : List (Nat × LineCost) :=
  match n.lines.first? with
  | some number => record lines n.typeName (n.charged probability) number table
  | none => table

/-- The costs of the lines on which statements start, in increasing order. -/
def ofNodes (probability : Scalar) (source : String) (nodes : List NodeCost) : List LineCost :=
  (nodes.foldl (recordNode probability (sourceLines source)) []).map Prod.snd

end LineCost

end CostAnalysis
