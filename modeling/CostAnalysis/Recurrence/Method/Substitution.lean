import CostAnalysis.Recurrence.Method.Characteristic
import CostAnalysis.Recurrence.Method.Master
import CostAnalysis.Recurrence.Method.Tree

/-!
# Substitution

Takes a bound, usually one that another method found, as the hypothesis of an
induction.  Without one, the bound is guessed from the recursive terms alone, so
that this method always applies.
-/

namespace CostAnalysis.Substitution

/-- What a method other than substitution says. -/
def direct? (settings : RecurrenceSettings) (r : Recurrence) : Method → Option MethodResult
  | .master => some (Master.solve settings r)
  | .iteration => some (Iteration.solve settings r)
  | .tree => some (Tree.solve settings r)
  | .characteristic => some (Characteristic.solve r)
  | .substitution => none

/-- The bound of the first preferred method that applies. -/
def priorityGuess? (settings : RecurrenceSettings) (r : Recurrence) : Option String :=
  ((r.kind.priority.filterMap (direct? settings r)).find? MethodResult.applicable).bind
    MethodResult.complexity?

/-- The bound of a recurrence without work. -/
def homogeneousGuess (r : Recurrence) : String :=
  let total := r.totalCoefficient
  let least := r.leastAmount 2
  if r.kind.isDivision then thetaOf (powerText (criticalExponent total least))
  else if total = 1 then thetaOf "n"
  else thetaOf (Iteration.branchingGrowth total least Work.constant).text

/-- The name of a bound and the function in it: `Θ` and `n` for `Θ(n)`. -/
def splitBound (guess : String) : String × String :=
  match Text.splitFirst '(' guess.toList with
  | some (name, rest) =>
    if rest.getLast? == some ')' then (String.ofList name, String.ofList rest.dropLast)
    else ("Θ", guess)
  | none => ("Θ", guess)

/-- The hypothesis for the subproblem of a term. -/
def hypothesisText (function : String) (t : RecursiveTerm) : String :=
  RecursiveTerm.coefficientText t.coefficient ++ "c·" ++ Work.textAt function t.argument

/-- Verifies a bound by induction. -/
def verify (r : Recurrence) (guess : String) (borrowed : Bool) : MethodResult :=
  let (bound, function) := splitBound guess
  let work := if r.work.isZero then "" else " + " ++ r.work.text
  .solved .substitution
    ["Guess: T(n) = " ++ guess,
      "Inductive hypothesis: T(m) ≤ c·" ++ function ++ " for all m < n",
      "Substitute: T(n) ≤ " ++ " + ".intercalate (r.terms.map (hypothesisText function)) ++ work,
      "For a large enough constant c the right side is at most c·" ++ function,
      "T(n) = " ++ guess]
    guess
    (if borrowed then "the " ++ bound ++ " bound " ++ function ++ " holds inductively"
      else
        "guess taken from the homogeneous part; f(n) = " ++ r.work.text ++ " is not accounted for")

/-- Solves a recurrence by substitution, from a bound if there is one. -/
def solve (settings : RecurrenceSettings) (r : Recurrence) (guess? : Option String) :
    MethodResult :=
  match guess? with
  | some guess => verify r guess true
  | none =>
    match priorityGuess? settings r with
    | some guess => verify r guess true
    | none => verify r (homogeneousGuess r) false

end CostAnalysis.Substitution
