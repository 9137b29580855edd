import CostAnalysis.Analysis.Failure
import CostAnalysis.Recurrence.Derived
import CostAnalysis.Recurrence.Solution
import CostAnalysis.Recurrence.Space
import CostAnalysis.Source.Parser

/-!
# Analyses

The analysis of a source text.  A program without self-calls is charged
statement by statement and its total is solved.  Otherwise a recurrence is
derived and solved for each recursive procedure.
-/

namespace CostAnalysis

/-- The analysis of a recursive procedure. -/
structure RecursiveAnalysis where
  derived : DerivedRecurrence
  solution : RecurrenceSolution
  space : SpaceUse

/-- What an analysis finds, depending on whether the program is recursive. -/
inductive Findings where
  | iterative (costs : CostReport) (solution : Solution)
  | recursive (functions : List RecursiveFunction) (analyses : List RecursiveAnalysis)

/-- The analysis of a program. -/
structure Analysis where
  program : Program
  findings : Findings

namespace Findings

/-- An analysis is exact if each of its parts is. -/
def confidence : Findings → Confidence
  | .iterative costs solution =>
    if costs.confidence = .exact ∧ solution.confidence = .exact then .exact else .bestEffort
  | .recursive _ analyses =>
    if analyses.all fun a => a.solution.confidence == .exact then .exact else .bestEffort

end Findings

namespace Analysis

/-- The rules of charging that settings fix. -/
def rulesOf (settings : Settings) : Except Failure CostRules :=
  match CostRules.ofSettings settings.cost with
  | .ok rules => .ok rules
  | .error text => .error (.expression text)

/-- Reads a program. -/
def parse (source : String) : Except Failure Program :=
  match Program.parse source with
  | .ok p => .ok p
  | .error e => .error (.source e)

/-- The costs of a source text, whether it is recursive or not. -/
def costs (settings : Settings) (source : String) : Except Failure (Program × CostReport) := do
  let rules ← rulesOf settings
  let p ← parse source
  return (p, CostReport.ofProgram rules p source)

/-- Analyses a recursive procedure. -/
def recursive (settings : Settings) (rules : CostRules) (p : Program) (source name : String) :
    Except Failure RecursiveAnalysis := do
  let derived ← DerivedRecurrence.ofProgram rules p name source
  let solution := RecurrenceSolution.ofTerms settings.recurrence derived.text derived.terms
    derived.work derived.notes
  let functions := (name :: derived.auxiliaries).filterMap p.function?
  return {
    derived
    solution := { solution with baseCases := derived.baseCases }
    space := SpaceUse.of solution.recurrence.terms functions }

/-- Analyses a source text. -/
def ofSource (settings : Settings) (source : String) : Except Failure Analysis := do
  let rules ← rulesOf settings
  let p ← parse source
  let functions := p.recursiveFunctions
  if functions.isEmpty then
    let costs := CostReport.ofProgram rules p source
    return { program := p, findings := .iterative costs (Solution.ofReport settings.series costs) }
  else
    let analyses ← functions.mapM fun f => recursive settings rules p source f.name
    return { program := p, findings := .recursive functions analyses }

end Analysis

end CostAnalysis
