import CostAnalysis.Recurrence.Balance
import CostAnalysis.Settings.Basic

/-!
# The master theorem

Solves recurrences with one division by comparing leaves and work.  Where the
work dominates, it has to be regular: the work of all subproblems is less than
the work at the root.
-/

namespace CostAnalysis.Master

/-- What is said about the regularity of dominant work; an error if it fails. -/
def regularity (a b : Nat) (work : Work) : Except String String :=
  if work.isExponential then .ok "Regularity: a·f(n/b)/f(n) → 0 for exponential f(n)"
  else
    let ratio := Balance.levelRatio a b work.growth.degree.toDouble
    let text := shortDecimal ratio
    if ratio < 1.0 then
      .ok ("Regularity: a·f(n/b) = " ++ text ++ "·f(n) with " ++ text ++ " < 1")
    else .error ("regularity fails: a·f(n/b) = " ++ text ++ "·f(n)")

/-- The steps about regularity, which only dominant work needs. -/
def regularitySteps (a b : Nat) (work : Work) : Dominance → Except String (List String)
  | .root => (regularity a b work).map fun step => [step]
  | _ => .ok []

/-- Why the part that dominates does so. -/
def explanation : Dominance → String
  | .leaves => "f(n) grows polynomially slower than n^log_b(a); the leaves dominate"
  | .levels => "f(n) matches n^log_b(a); every level of the recursion costs the same"
  | .root =>
    "f(n) dominates n^log_b(a) and satisfies the regularity condition a·f(n/b) ≤ c·f(n)"

/-- Solves `T(n) = aT(n/b) + f(n)`. -/
def solveTerm (a b : Nat) (work : Work) (epsilon : Float) : MethodResult :=
  match Balance.of? a b work epsilon with
  | none =>
    .notApplicable .master ("f(n) = " ++ work.text ++ " has no polynomial order to compare")
  | some balance =>
    match regularitySteps a b work balance.dominance with
    | .error reason => .notApplicable .master reason
    | .ok regular =>
      let steps :=
        ["Identify a = " ++ toString a ++ ", b = " ++ toString b ++ ", f(n) = " ++ work.text,
          "Compute log_b(a) = log_" ++ toString b ++ "(" ++ toString a ++ ") = " ++
            shortDecimal balance.critical,
          "f(n) ∈ " ++ thetaOf work.growth.text,
          "Case " ++ toString balance.dominance.number ++ ": " ++ balance.comparison] ++
        regular ++ ["T(n) = " ++ balance.complexity]
      { MethodResult.solved .master steps balance.complexity (explanation balance.dominance) with
        masterCase? := some balance.dominance.number }

/-- Whether the class has a single division. -/
def covers (c : RecurrenceClass) : Bool :=
  c == .singleDivision || c == .equalDivision

/-- Solves a recurrence by the master theorem. -/
def solve (settings : RecurrenceSettings) (r : Recurrence) : MethodResult :=
  match covers r.kind, r.terms with
  | true, t :: _ => solveTerm t.coefficient t.amount r.work settings.masterEpsilon
  | _, _ => .notApplicable .master "the master theorem covers a single term aT(n/b) only"

end CostAnalysis.Master
