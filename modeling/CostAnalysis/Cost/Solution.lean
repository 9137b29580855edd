import CostAnalysis.Cost.Report
import CostAnalysis.Settings.Basic
import CostAnalysis.Algebra.ClosedForm
import CostAnalysis.Algebra.Growth

/-!
# Solving costs

A cost is brought into closed form case by case: its summations are resolved
from the inside out, the result is expanded and, where that makes it no longer,
factored, and its growth is read off the dominant term.  Each step of the
derivation is recorded as a description and a formula.
-/

namespace CostAnalysis

/-- The three cases of a cost. -/
inductive Case where
  | best
  | average
  | worst
deriving DecidableEq

/-- The case as an identifier in reports. -/
def Case.tag : Case → String
  | .best => "best"
  | .average => "avg"
  | .worst => "worst"

/-- A step of a derivation. -/
structure DerivationStep where
  number : Nat
  case : Case
  description : String
  expression : String

namespace DerivationStep

/-- Numbers steps from one on, in order. -/
def numbered (steps : List (Case × String × String)) : List DerivationStep :=
  steps.zipIdx.map fun ((case, description, expression), k) =>
    { number := k + 1, case, description, expression }

end DerivationStep

/-- The solution of one case. -/
structure CaseSolution where
  /-- The closed form. -/
  poly : Poly
  growth : Growth
  /-- The descriptions and formulas of the derivation. -/
  steps : List (String × String)
  notes : List Note

namespace CaseSolution

/-- The text of the closed form. -/
def exact (s : CaseSolution) : String :=
  s.poly.compactText

/-- The steps in which summations are resolved. -/
def sumSteps (r : Simplified) : List (String × String) :=
  if r.resolutions.isEmpty then []
  else
    (r.resolutions.map fun s =>
      (s.label ++ " over " ++ s.index, s.summation ++ " = " ++ s.result)) ++
      [("Substitute resolved summations", r.substituted.text)]

/-- Solves a formula, where `unread` are the fragments that could not be read as
formulas. -/
def ofFormula (e : Formula) (unread : List String) : CaseSolution :=
  let r := e.simplify
  let expanded := r.poly.text
  let exact := r.poly.compactText
  { poly := r.poly
    growth := Growth.ofPoly e.freeVars r.poly
    steps :=
      [("Cost expression", e.text)] ++ sumSteps r ++
      [("Expand and combine like terms", expanded)] ++
      (if e.hasFraction then [("Exact rational coefficients", expanded)] else []) ++
      (if exact == expanded then [] else [("Factor", exact)]) ++
      [("Final result", exact)]
    notes :=
      Note.recordAll (Note.logOf (unread.map fun t => ⟨.unrecognizedExpression, t⟩)) r.notes }

/-- Solves the formula that a text describes. -/
def ofText (text : String) : CaseSolution :=
  let (e, unread) := Formula.readLenient text
  ofFormula e unread

end CaseSolution

/-- The solution of a cost. -/
structure Solution where
  best : CaseSolution
  average : CaseSolution
  worst : CaseSolution
  /-- The derivation line by line. -/
  lineSteps : List DerivationStep := []

namespace Solution

/-- Solves three formulas given as texts. -/
def ofTexts (best average worst : String) : Solution :=
  { best := .ofText best, average := .ofText average, worst := .ofText worst }

/-- Solves a cost.  It is read from its text, so that a solution depends on what
is shown only. -/
def ofCost (c : Cost) : Solution :=
  ofTexts c.best.text c.average.text c.worst.text

/-- The notes of all cases, each once. -/
def notes (s : Solution) : List Note :=
  Note.logOf (s.best.notes ++ s.average.notes ++ s.worst.notes)

/-- A solution without notes is exact. -/
def confidence (s : Solution) : Confidence :=
  Note.confidence s.notes

/-- The derivations of the three cases one after the other. -/
def steps (s : Solution) : List DerivationStep :=
  DerivationStep.numbered
    (s.best.steps.map (Case.best, ·) ++ s.average.steps.map (Case.average, ·) ++
      s.worst.steps.map (Case.worst, ·))

/-- The tight bound: that of the average case, unless best and worst case grow
alike. -/
def theta (s : Solution) : String :=
  if s.best.growth.text == s.worst.growth.text then s.best.growth.theta
  else s.average.growth.theta

/-- The derivation of the worst case as the sum of the costs of lines. -/
def lineDerivation (lines : List LineCost) : List DerivationStep :=
  let charged := lines.filter fun l => !l.cost.worst.isZero
  if charged.isEmpty then []
  else
    let name (l : LineCost) : String := "L" ++ toString l.number
    let solved := charged.map fun l => (l, l.cost.worst.simplify.poly)
    let total := solved.foldl (fun acc (_, p) => acc.add (.resolved p)) Formula.zero
    DerivationStep.numbered
      ([(.worst, "Total as the sum of line costs",
          "T(n) = " ++ " + ".intercalate (charged.map name))] ++
        solved.map (fun (l, p) =>
          (.worst, "Line " ++ toString l.number ++ ": " ++ l.code,
            name l ++ " = " ++ l.cost.worst.text ++ " = " ++ p.compactText)) ++
        [(.worst, "Sum of line costs", "T(n) = " ++ total.simplify.poly.compactText)])

/-- Solves the total of a cost report and, where asked for, derives it line by
line. -/
def ofReport (settings : SeriesSettings) (r : CostReport) : Solution :=
  { ofCost r.total with
    lineSteps := if settings.lineSteps then lineDerivation r.lines else [] }

end Solution

end CostAnalysis
