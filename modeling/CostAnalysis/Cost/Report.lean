import CostAnalysis.Cost.Lines

/-!
# Cost reports

The costs of a program in all detail: for each statement, for each line and in
total.
-/

namespace CostAnalysis

/-- The costs of a program. -/
structure CostReport where
  nodes : List NodeCost
  lines : List LineCost
  total : Cost
  /-- Each note once. -/
  notes : List Note

namespace CostReport

/-- A report without notes is exact. -/
def confidence (r : CostReport) : Confidence :=
  Note.confidence r.notes

/-- The names of the statements: their kind in small letters and their number
among those of their kind, where `before` are the kinds of the statements
before. -/
def nodeIds (before : List String) : List NodeCost → List String
  | [] => []
  | n :: ns =>
    (String.ofList (Text.lowercase n.typeName.toList) ++ toString (before.count n.typeName + 1)) ::
      nodeIds (n.typeName :: before) ns

/-- The costs of a program, given its source for the texts of its lines. -/
def ofProgram (rules : CostRules) (p : Program) (source : String) : CostReport :=
  let (total, nodes) := p.nodes rules
  { nodes
    lines := LineCost.ofNodes rules.probability source nodes
    total
    notes := Note.logOf (nodes.flatMap NodeCost.notes) }

end CostReport

end CostAnalysis
