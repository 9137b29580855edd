import CostAnalysis.Analysis.Basic

/-!
# Reports in plain text

A report is a list of lines.  What belongs to a heading is indented by three
columns.
-/

namespace CostAnalysis

/-- A parameter with a mark of arrays. -/
def Param.text (p : Param) : String :=
  if p.isArray then p.name ++ "[]" else p.name

/-- The head of a procedure and the number of its statements. -/
def Function.summary (f : Function) : String :=
  "   " ++ f.name ++ "(" ++ ", ".intercalate (f.params.map Param.text) ++ ")  " ++
    toString (Stmt.preorderAll f.body).length ++ " statement(s)"

/-- The procedures of a program. -/
def Program.report (p : Program) : List String :=
  "🌳 Parsed program" :: p.functions.map Function.summary

/-- How far a result can be trusted, and why no further. -/
def Confidence.report (c : Confidence) (notes : List Note) : List String :=
  ("   Confidence: " ++ c.text) :: notes.map fun n => "   - " ++ n.text

/-- The worst cost of a line beside its number and its code. -/
def LineCost.report (l : LineCost) : String :=
  "   " ++ Text.padLeft 3 (toString l.number) ++ " │ " ++ Text.padRight 40 l.code ++ " │ " ++
    l.cost.worst.text

/-- The costs of lines and the total. -/
def CostReport.report (r : CostReport) : List String :=
  "🧮 Line costs" :: r.lines.map LineCost.report ++
    ["   best:  " ++ r.total.best.text, "   avg:   " ++ r.total.average.text,
      "   worst: " ++ r.total.worst.text] ++
    r.confidence.report r.notes

/-- A numbered step with its case. -/
def DerivationStep.report (s : DerivationStep) : String :=
  "   " ++ Text.padLeft 2 (toString s.number) ++ ". [" ++ s.case.tag ++ "] " ++ s.description ++
    ": " ++ s.expression

/-- The closed form of the worst case, the bounds, and how they were found. -/
def Solution.report (s : Solution) : List String :=
  ["   Exact (worst): " ++ s.worst.exact,
    "   Bounds: " ++ s.best.growth.omega ++ "  " ++ s.theta ++ "  " ++ s.worst.growth.bigO,
    "   Derivation"] ++
    s.steps.map DerivationStep.report

/-- What a method found, or why it does not apply.  The best method has a star
and its steps. -/
def MethodResult.report (best : Method) (r : MethodResult) : List String :=
  let isBest := r.method = best
  let marker := if isBest then "★" else if r.applicable then "✓" else "✗"
  ("   " ++ marker ++ " " ++ Text.padRight 15 r.method.tag ++ " " ++
      r.complexity?.getD r.explanation) ::
    (if isBest then r.steps.map ("       " ++ ·) else [])

namespace RecurrenceSolution

/-- The recursion tree, where the solution was read off it. -/
def tree? (s : RecurrenceSolution) : Option RecursionTree :=
  if s.bestMethod = .tree then
    (s.methods.find? fun r => r.method = .tree).bind MethodResult.tree?
  else none

/-- A recurrence with its class, what each method found, and the solution. -/
def report (s : RecurrenceSolution) : List String :=
  ["   " ++ s.raw,
    "   Class " ++ s.recurrence.kind.tag ++ ": " ++ s.recurrence.kind.description] ++
    s.methods.flatMap (MethodResult.report s.bestMethod) ++
    (match s.tree? with
      | some tree => ["   Tree height: " ++ tree.height]
      | none => []) ++
    (if s.baseCases.isEmpty then [] else ["   Base cases: " ++ ", ".intercalate s.baseCases]) ++
    ["   Solution: " ++ s.finalSolution]

end RecurrenceSolution

/-- The space of a procedure. -/
def SpaceUse.report (s : SpaceUse) : String :=
  "   Space: " ++ s.total.bigO ++ " (depth " ++ s.depth.bigO ++ ", auxiliary " ++
    s.auxiliary.bigO ++ ")"

/-- The analysis of a recursive procedure, after an empty line. -/
def RecursiveAnalysis.report (a : RecursiveAnalysis) : List String :=
  ["", "🔁 " ++ a.derived.function] ++ a.solution.report ++ [a.space.report]

/-- What an analysis found. -/
def Findings.report : Findings → List String
  | .iterative _ solution => solution.report
  | .recursive _ analyses => analyses.flatMap RecursiveAnalysis.report

/-- The analysis of the program in a file. -/
def Analysis.report (a : Analysis) (file : String) : List String :=
  ("📊 Complexity analysis " ++ file) :: a.findings.report ++
    ["", "   Confidence: " ++ a.findings.confidence.text]

end CostAnalysis
