import CostAnalysis.Recurrence.Method.Substitution
import CostAnalysis.Recurrence.Reader
import CostAnalysis.Note

/-!
# Solutions of recurrences

All methods are tried on a recurrence.  The first one that applies, in the order
that its class prefers, gives the solution.  A recurrence that belongs to no
class is treated as `2T(n/2) + f(n)`, with a note that says so.
-/

namespace CostAnalysis

/-- The solution of a recurrence and what all methods said. -/
structure RecurrenceSolution where
  raw : String
  recurrence : Recurrence
  baseCases : List String := []
  /-- The answers of the methods, the preferred ones first. -/
  methods : List MethodResult
  bestMethod : Method
  finalSolution : String
  /-- Each note once. -/
  notes : List Note

namespace RecurrenceSolution

/-- A solution without notes is exact. -/
def confidence (s : RecurrenceSolution) : Confidence :=
  Note.confidence s.notes

/-- The terms that an unclassifiable recurrence is assumed to have. -/
def assumedTerms : List RecursiveTerm :=
  [{ coefficient := 2, kind := .division, amount := 2 }]

/-- The note about a recurrence that belongs to no class. -/
def assumptionNote (reason : String) : Note :=
  ⟨.unclassifiableRecurrence,
    "Unclassifiable recurrence: " ++ reason ++ "; assumed T(n) = 2T(n/2) + f(n)"⟩

/-- Runs one method on its own, where `guess?` is what substitution starts
from. -/
def answer (settings : RecurrenceSettings) (r : Recurrence) (guess? : Option String) (m : Method) :
    MethodResult :=
  (Substitution.direct? settings r m).getD (Substitution.solve settings r guess?)

/-- The result that stands for a class among some results: that of the first
preferred method, looked up by its name, that applies. -/
def preferred? (kind : RecurrenceClass) (results : List MethodResult) : Option MethodResult :=
  (kind.priority.filterMap fun m => results.find? fun result => result.method == m).find?
    MethodResult.applicable

/-- Puts results in order.  Substitution stands where the order names it, and
every other place takes the next of the results that remain, whatever method it
names. -/
def interleave (verified : MethodResult) : List Method → List MethodResult → List MethodResult
  | [], _ => []
  | .substitution :: order, remaining => verified :: interleave verified order remaining
  | _ :: order, result :: remaining => result :: interleave verified order remaining
  | _ :: order, [] => interleave verified order []

/-- Solves a classified recurrence.  Substitution waits for the bound of another
method, so that the other methods run first; their results are put in order by
position afterwards. -/
def ofRecurrence (settings : RecurrenceSettings) (raw : String) (notes : List Note)
    (r : Recurrence) : RecurrenceSolution :=
  let order := r.kind.methodOrder
  let results := (order.filter (· ≠ .substitution)).map (answer settings r none)
  let guess? := (preferred? r.kind results).bind MethodResult.complexity?
  let verified := Substitution.solve settings r guess?
  let methods := interleave verified order results
  let (bestMethod, finalSolution) :=
    match preferred? r.kind methods with
    | some best => (best.method, best.complexity?.getD "")
    | none => (.substitution, verified.complexity?.getD "")
  { raw
    recurrence := r
    methods
    bestMethod
    finalSolution
    notes :=
      if r.work.known then notes
      else Note.record notes
        ⟨.unrecognizedExpression, "f(n) = " ++ r.work.text ++ " kept verbatim"⟩ }

/-- Solves a recurrence given by its terms and its work. -/
def ofTerms (settings : RecurrenceSettings) (raw : String) (terms : List RecursiveTerm)
    (work : Work) (notes : List Note) : RecurrenceSolution :=
  match RecurrenceClass.classify terms with
  | .ok kind => ofRecurrence settings raw notes { kind, terms, work }
  | .error fault =>
    ofRecurrence settings raw (Note.record notes (assumptionNote fault.reason))
      { kind := .equalDivision, terms := assumedTerms, work }

/-- Solves a recurrence given as a text. -/
def ofText (settings : RecurrenceSettings) (text : String) : RecurrenceSolution :=
  let raw := Text.trimString text
  match WrittenRecurrence.read text with
  | .ok w => ofTerms settings raw w.terms w.work []
  | .error fault =>
    ofTerms settings raw assumedTerms (WrittenRecurrence.salvagedWork text)
      [assumptionNote fault.reason]

end RecurrenceSolution

end CostAnalysis
