import CostAnalysis.Analysis.Basic
import CostAnalysis.Report.RecurrenceJson

/-!
# Analyses in reports
-/

namespace CostAnalysis

/-- The analysis of a recursive procedure. -/
def RecursiveAnalysis.toJson (a : RecursiveAnalysis) : Json :=
  .obj [("function", .str a.derived.function), ("derived", a.derived.toJson),
    ("recurrence", a.solution.toJson), ("space", a.space.toJson)]

/-- The analysis of a program. -/
def Analysis.toJson (a : Analysis) : Json :=
  match a.findings with
  | .iterative costs solution =>
    .obj [("mode", .str "iterative"), ("ast", a.program.toJson),
      ("recursion", RecursiveFunction.report []), ("costs", costs.toJson),
      ("solution", solution.toJson), a.findings.confidence.field]
  | .recursive functions analyses =>
    .obj [("mode", .str "recursive"), ("ast", a.program.toJson),
      ("recursion", RecursiveFunction.report functions),
      ("recurrences", .arr (analyses.map RecursiveAnalysis.toJson)), a.findings.confidence.field]

end CostAnalysis
