import CostAnalysis.Report.Json
import CostAnalysis.Report.ProgramJson
import CostAnalysis.Source.SelfCalls
import CostAnalysis.Cost.Solution

/-!
# Costs and their solutions in reports
-/

namespace CostAnalysis

/-- A note. -/
def Note.toJson (n : Note) : Json :=
  .obj [("kind", .str n.kind.tag), ("detail", .str n.detail)]

/-- The field of notes, which is left out where there are none. -/
def Note.field (notes : List Note) : List (String × Json) :=
  if notes.isEmpty then [] else [("notes", .arr (notes.map Note.toJson))]

/-- The field of the confidence. -/
def Confidence.field (c : Confidence) : String × Json :=
  ("confidence", .str c.tag)

/-- A triple of texts, one for each case. -/
def Json.cases (best average worst : String) : Json :=
  .obj [("best", .str best), ("avg", .str average), ("worst", .str worst)]

/-- The recursive procedures of a program. -/
def RecursiveFunction.report (fs : List RecursiveFunction) : Json :=
  .obj [("is_recursive", .bool !fs.isEmpty),
    ("recursive_functions", .arr (fs.map fun f => .obj [("name", .str f.name),
      ("calls", .arr (f.calls.map fun c =>
        .obj [("line", .nat c.line), ("args", .strs c.args)]))]))]

/-- A cost. -/
def Cost.toJson (c : Cost) : Json :=
  .cases c.best.text c.average.text c.worst.text

/-- The range of a loop. -/
def LoopRange.toJson (r : LoopRange) : Json :=
  .obj ([("var", .str r.index)] ++ Json.field? "source_var" (r.sourceVar?.map .str) ++
    [("start", .str r.start.text), ("end", .str r.stop.text)] ++
    Json.field? "avg_end" (r.averageStop?.map fun e => .str e.text) ++
    [("kind", .str r.kind.tag)])

/-- The cost of a statement of the given name. -/
def NodeCost.toJson (id : String) (n : NodeCost) : Json :=
  .obj ([("node_id", .str id), ("node_type", .str n.typeName), ("cost", n.cost.toJson),
    ("own_cost", n.own.toJson)] ++ Json.field? "loop_info" (n.range?.map LoopRange.toJson) ++
    n.lines.fields)

/-- The cost of a line. -/
def LineCost.toJson (l : LineCost) : Json :=
  .obj [("line_number", .nat l.number), ("code", .str l.code), ("operations", .strs l.operations),
    ("cost", l.cost.toJson)]

/-- The costs of a program. -/
def CostReport.toJson (r : CostReport) : Json :=
  .obj ([("per_node", .arr (List.zipWith NodeCost.toJson (nodeIds [] r.nodes) r.nodes)),
    ("per_line", .arr (r.lines.map LineCost.toJson)), ("total", r.total.toJson)] ++
    Note.field r.notes ++ [r.confidence.field])

/-- A step of a derivation. -/
def DerivationStep.toJson (s : DerivationStep) : Json :=
  .obj [("step", .nat s.number), ("case", .str s.case.tag), ("description", .str s.description),
    ("expression", .str s.expression)]

/-- The solution of a cost. -/
def Solution.toJson (s : Solution) : Json :=
  .obj ([("exact", .cases s.best.exact s.average.exact s.worst.exact),
    ("big_o", .cases s.best.growth.bigO s.average.growth.bigO s.worst.growth.bigO),
    ("bounds", .obj [("omega", .str s.best.growth.omega), ("theta", .str s.theta),
      ("big_o", .str s.worst.growth.bigO)]),
    ("steps", .arr (s.steps.map DerivationStep.toJson))] ++
    (if s.lineSteps.isEmpty then []
      else [("steps_by_line", .arr (s.lineSteps.map DerivationStep.toJson))]) ++
    [s.confidence.field] ++ Note.field s.notes)

end CostAnalysis
