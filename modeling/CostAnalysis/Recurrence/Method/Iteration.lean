import CostAnalysis.Recurrence.Balance
import CostAnalysis.Settings.Basic

/-!
# Iteration

Unfolds a recurrence with one term down to its base case and sums the work on
the way.
-/

namespace CostAnalysis.Iteration

/-- The growth of `a^(n/b)` calls, unless the work grows faster. -/
def branchingGrowth (a b : Nat) (work : Work) : Growth :=
  let exponent := (Poly.var "n").scale ((Scalar.ofFraction? 1 (Int.ofNat b)).getD 1)
  let calls : Growth := { exponentials := [(.ofNat a, exponent)] }
  if work.isExponential && work.growth.cmp calls == .gt then work.growth else calls

/-- The growth of a chain of `n/b` calls where the sum of their work has no
closed form. -/
def chainEstimate (work : Work) : Growth :=
  if work.isExponential then work.growth else (Growth.polylog "n" 1 0).mul work.growth

/-- The sum of `f(b·i)` for `i` from one to `n/b`. -/
def chainSum (b : Nat) (f : Formula) : Formula :=
  let stride := Formula.int (Int.ofNat b)
  Formula.sum (Formula.substitute "n" (stride.mul (.var "i")) f) "i" Formula.one
    ((Formula.var "n").div stride)

/-- The growth of a chain of `n/b` calls, and the closed form of the sum of
their work where there is one. -/
def linearChain (b : Nat) (work : Work) : Growth × Option String :=
  match work.known, work.formula? with
  | true, some f =>
    let poly := (chainSum b f).simplify.poly
    let growth := Growth.ofPoly ["n"] poly
    if growth.verbatim.isSome then (chainEstimate work, none)
    else (growth, some poly.compactText)
  | _, _ => (chainEstimate work, none)

/-- What the series of level costs looks like. -/
def seriesShape : Dominance → String
  | .leaves => "increasing geometric series; the last level, n^log_b(a) leaves, dominates"
  | .levels => "every level contributes equally across log_b(n) levels"
  | .root => "decreasing geometric series; the top level f(n) dominates"

/-- Unfolds `T(n) = aT(n/b) + f(n)`. -/
def divide (settings : RecurrenceSettings) (a b : Nat) (r : Recurrence) : MethodResult :=
  match Balance.of? a b r.work settings.masterEpsilon with
  | none =>
    .notApplicable .iteration
      ("the series Σ a^i·f(n/b^i) has no closed form for f(n) = " ++ r.work.text)
  | some balance =>
    let aText := toString a
    let bText := toString b
    .solved .iteration
      [r.text,
        "T(n/" ++ bText ++ ") = " ++ RecursiveTerm.coefficientText a ++ "T(n/" ++
          toString (b * b) ++ ") + " ++ r.work.atSize ("n/" ++ bText),
        "After k expansions: T(n) = " ++ aText ++ "^k·T(n/" ++ bText ++ "^k) + " ++
          "Σ_\x7bi=0\x7d^\x7bk-1\x7d " ++ aText ++ "^i·f(n/" ++ bText ++ "^i)",
        "Expansion stops at n/" ++ bText ++ "^k = 1, so k = log_" ++ bText ++ "(n)",
        if r.work.isPolylog then
          "Level ratio a/b^k = " ++
            shortDecimal (Balance.levelRatio a b r.work.growth.degree.toDouble) ++ ": " ++
            seriesShape balance.dominance
        else "f(n) = " ++ r.work.text ++ " outgrows the leaf count",
        "T(n) = " ++ balance.complexity]
      balance.complexity
      "the unrolled sum is geometric in the level index"

/-- Unfolds `T(n) = T(n-b) + f(n)`, given the first steps. -/
def chain (b : Nat) (work : Work) (start : List String) : MethodResult :=
  let bText := toString b
  let (growth, closed?) := linearChain b work
  let complexity := thetaOf growth.text
  .solved .iteration
    (start ++ [
      "After k expansions: T(n) = T(n-" ++ bText ++ "k) + Σ_\x7bi=0\x7d^\x7bk-1\x7d f(n-" ++
        bText ++ "i)",
      "Expansion stops at k = n/" ++ bText,
      match closed? with
      | some closed => "Σ_\x7bi=1\x7d^\x7bn/" ++ bText ++ "\x7d f(" ++ bText ++ "i) = " ++ closed
      | none =>
        "The sum of n/" ++ bText ++ " terms of f(n) = " ++ work.text ++ " grows as n·f(n)",
      "T(n) = " ++ complexity])
    complexity
    "a single chain of n/b calls, each paying f"

/-- Unfolds `T(n) = aT(n-b) + f(n)`, given the first steps. -/
def branching (a b : Nat) (work : Work) (start : List String) : MethodResult :=
  let aText := toString a
  let bText := toString b
  let complexity := thetaOf (branchingGrowth a b work).text
  .solved .iteration
    (start ++ [
      "After k expansions: T(n) = " ++ aText ++ "^k·T(n-" ++ bText ++ "k) + " ++
        "Σ_\x7bi=0\x7d^\x7bk-1\x7d " ++ aText ++ "^i·f(n-" ++ bText ++ "i)",
      "Expansion stops at k = n/" ++ bText ++ "; the leading term is " ++ aText ++ "^(n/" ++
        bText ++ ")·T(0)",
      "Geometric series with ratio " ++ aText ++ " > 1 is dominated by its largest term",
      "T(n) = " ++ complexity])
    complexity
    "the number of calls multiplies by a at every level"

/-- Twice an amount, which is a machine word of 32 bits. -/
def twice (b : Nat) : Nat :=
  2 * b % Numeric.twoTo 32

/-- Unfolds a recurrence with one subtraction. -/
def subtract (a b : Nat) (r : Recurrence) : MethodResult :=
  let start := [
    r.text,
    "T(n-" ++ toString b ++ ") = " ++ RecursiveTerm.coefficientText a ++ "T(n-" ++
      toString (twice b) ++ ") + " ++ r.work.atSize ("n-" ++ toString b)]
  if a = 1 then chain b r.work start else branching a b r.work start

/-- Solves a recurrence by iteration. -/
def solve (settings : RecurrenceSettings) (r : Recurrence) : MethodResult :=
  match r.terms with
  | [t] =>
    if t.isDivision then divide settings t.coefficient t.amount r
    else subtract t.coefficient t.amount r
  | _ => .notApplicable .iteration
    "unrolling branches into chains of different lengths; there is no single series to sum"

end CostAnalysis.Iteration
