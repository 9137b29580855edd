import CostAnalysis.Numeric.Decimal
import CostAnalysis.Algebra.Formula.Reader

/-!
# Settings

The adjustable parameters of an analysis.  Every field has a default, so that an
empty document is a valid choice of settings.
-/

namespace CostAnalysis

/-- How the increment of a counting loop is charged where loop control is
counted. -/
inductive IncrementStyle where
  /-- One operation. -/
  | unit
  /-- The addition and the assignment separately. -/
  | double
deriving DecidableEq

/-- The operations of one increment. -/
def IncrementStyle.operations : IncrementStyle → Int
  | .unit => 1
  | .double => 2

/-- The style as an identifier. -/
def IncrementStyle.tag : IncrementStyle → String
  | .unit => "unit"
  | .double => "double"

/-- Parameters of the cost model. -/
structure CostSettings where
  /-- How often a guard is taken to hold in the average case. -/
  branchProbability : Float := 0.5
  /-- Whether initializations, tests and increments of counting loops are
  charged. -/
  countLoopControl : Bool := false
  incrementStyle : IncrementStyle := .unit
  /-- The iterations of a loop with a condition outside any counting loop, in
  the average case. -/
  whileAverageBound : String := "n/2"
  /-- The same in the worst case. -/
  whileWorstBound : String := "n"

/-- Parameters of the solver of sums. -/
structure SeriesSettings where
  /-- Whether the three cases may be solved at the same time; no result depends
  on it. -/
  parallelCases : Bool := false
  /-- Whether a derivation line by line is given. -/
  lineSteps : Bool := true

/-- Parameters of the solver of recurrences. -/
structure RecurrenceSettings where
  /-- The tolerance within which two exponents count as equal. -/
  masterEpsilon : Float := 1e-4
  /-- The levels of a recursion tree that are listed. -/
  treeLevels : Nat := 4
  /-- Whether a diagram of the recursion tree is drawn. -/
  treeDiagram : Bool := true
  /-- Whether the methods may be tried at the same time; no result depends on
  it. -/
  parallelMethods : Bool := false

/-- All parameters. -/
structure Settings where
  cost : CostSettings := {}
  series : SeriesSettings := {}
  recurrence : RecurrenceSettings := {}

namespace CostSettings

/-- The branch probability as a fraction; a half where it is none. -/
def probability (s : CostSettings) : Scalar :=
  (Scalar.ofDouble? s.branchProbability).getD Scalar.half

/-- The average and the worst bound of loops with a condition, or the first text
that is no formula. -/
def whileBounds (s : CostSettings) : Except String (Formula × Formula) :=
  match Formula.read? s.whileAverageBound with
  | none => .error s.whileAverageBound
  | some average =>
    match Formula.read? s.whileWorstBound with
    | none => .error s.whileWorstBound
    | some worst => .ok (average, worst)

end CostSettings

/-- Why settings are refused. -/
inductive SettingsFault where
  | branchProbability (value : Float)
  | whileBound (field text : String)
  | masterEpsilon (value : Float)
  | treeLevels

/-- How a text that is no formula is reported. -/
def unrecognizedText (text : String) : String :=
  "Unrecognized expression: " ++ Text.trimString text

/-- The fault in words. -/
def SettingsFault.message : SettingsFault → String
  | .branchProbability p =>
    "branch_probability must be within [0, 1], got " ++ Numeric.Decimal.plain p
  | .whileBound field text =>
    field ++ " '" ++ text ++ "' is not an expression: " ++ unrecognizedText text
  | .masterEpsilon e => "master_epsilon must be within (0, 1), got " ++ Numeric.Decimal.plain e
  | .treeLevels => "tree_levels must be at least 1"

/-- The first fault of a choice of settings. -/
def Settings.fault? (s : Settings) : Option SettingsFault :=
  if !(0.0 ≤ s.cost.branchProbability && s.cost.branchProbability ≤ 1.0) then
    some (.branchProbability s.cost.branchProbability)
  else if (Formula.read? s.cost.whileAverageBound).isNone then
    some (.whileBound "while_average_bound" s.cost.whileAverageBound)
  else if (Formula.read? s.cost.whileWorstBound).isNone then
    some (.whileBound "while_worst_bound" s.cost.whileWorstBound)
  else if !(0.0 < s.recurrence.masterEpsilon && s.recurrence.masterEpsilon < 1.0) then
    some (.masterEpsilon s.recurrence.masterEpsilon)
  else if s.recurrence.treeLevels = 0 then some .treeLevels
  else none

end CostAnalysis
