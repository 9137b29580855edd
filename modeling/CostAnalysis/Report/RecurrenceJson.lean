import CostAnalysis.Recurrence.Derived
import CostAnalysis.Recurrence.Solution
import CostAnalysis.Recurrence.Space
import CostAnalysis.Report.CostJson

/-!
# Recurrences and their solutions in reports
-/

namespace CostAnalysis

/-- A recursive term. -/
def RecursiveTerm.toJson (t : RecursiveTerm) : Json :=
  .obj [("coefficient", .nat t.coefficient), ("kind", .str t.kind.tag), ("amount", .nat t.amount)]

/-- The coefficients and amounts of the first two terms, and the work. -/
def Recurrence.parametersJson (r : Recurrence) : Json :=
  let first := r.terms.head?
  let second := r.terms.tail.head?
  .obj ([("a", .nat ((first.map RecursiveTerm.coefficient).getD 1)),
    ("b", .nat ((first.map RecursiveTerm.amount).getD 1))] ++
    Json.field? "c" (second.map fun t => .nat t.coefficient) ++
    Json.field? "d" (second.map fun t => .nat t.amount) ++
    [("f_n", .str r.work.text), ("is_division", .bool (first.any RecursiveTerm.isDivision))])

/-- A level of a recursion tree. -/
def TreeLevel.toJson (l : TreeLevel) : Json :=
  .obj [("level", .nat l.level), ("num_nodes", .str l.nodes), ("problem_size", .str l.size),
    ("cost_per_node", .str l.nodeCost), ("total_level_cost", .str l.totalCost)]

/-- A recursion tree. -/
def RecursionTree.toJson (t : RecursionTree) : Json :=
  .obj ([("height", .str t.height), ("levels", .arr (t.levels.map TreeLevel.toJson))] ++
    Json.field? "diagram" (t.diagram?.map .str))

/-- The result of a method. -/
def MethodResult.toJson (r : MethodResult) : Json :=
  .obj ([("method", .str r.method.tag), ("applicable", .bool r.applicable),
    ("steps", .strs r.steps)] ++
    Json.field? "complexity" (r.complexity?.map .str) ++
    [("explanation", .str r.explanation)] ++
    Json.field? "case" (r.masterCase?.map .nat) ++
    Json.field? "tree" (r.tree?.map RecursionTree.toJson))

/-- The solution of a recurrence. -/
def RecurrenceSolution.toJson (s : RecurrenceSolution) : Json :=
  .obj ([("raw", .str s.raw), ("classification", .str s.recurrence.kind.tag),
    ("parameters", s.recurrence.parametersJson),
    ("terms", .arr (s.recurrence.terms.map RecursiveTerm.toJson)),
    ("base_cases", .strs s.baseCases),
    ("methods_tried", .arr (s.methods.map MethodResult.toJson)),
    ("best_method", .str s.bestMethod.tag), ("final_solution", .str s.finalSolution),
    s.confidence.field] ++ Note.field s.notes)

/-- The recurrence of a procedure. -/
def DerivedRecurrence.toJson (d : DerivedRecurrence) : Json :=
  .obj ([("function", .str d.function), ("text", .str d.text),
    ("terms", .arr (d.terms.map RecursiveTerm.toJson)), ("base_cases", .strs d.baseCases),
    ("auxiliary", .strs d.auxiliaries), ("residual", d.residual.toJson)] ++ Note.field d.notes)

/-- The space of a procedure. -/
def SpaceUse.toJson (s : SpaceUse) : Json :=
  .obj [("recursion_depth", .str s.depth.bigO), ("frame_size", .str Growth.constant.bigO),
    ("auxiliary_space", .str s.auxiliary.bigO), ("total_space", .str s.total.bigO),
    ("explanation", .str s.explanation)]

end CostAnalysis
