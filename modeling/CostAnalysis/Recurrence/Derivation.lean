import CostAnalysis.Recurrence.Basic
import CostAnalysis.Recurrence.Work

/-!
# Derivations

What the methods of solution have in common: the recurrence they are given, and
the result they return.  A result names the method it comes from and says on its
own whether the method applies and which bound it found; that the three always
fit together is a theorem about the methods, not part of the type.
-/

namespace CostAnalysis

/-- A recurrence together with the class it is treated as. -/
structure Recurrence where
  kind : RecurrenceClass
  terms : List RecursiveTerm
  work : Work

namespace Recurrence

/-- The text of a recurrence, as in `T(n) = 2T(n/2) + n`. -/
def text (r : Recurrence) : String :=
  let terms := " + ".intercalate (r.terms.map RecursiveTerm.text)
  if r.work.isZero then "T(n) = " ++ terms else "T(n) = " ++ terms ++ " + " ++ r.work.text

/-- The number of recursive calls. -/
def totalCoefficient (r : Recurrence) : Nat :=
  RecursiveTerm.totalCoefficient r.terms

/-- The least amount by which a term reduces the size, or a default without
terms. -/
def leastAmount (r : Recurrence) (default : Nat) : Nat :=
  match r.terms.map RecursiveTerm.amount with
  | [] => default
  | a :: as => as.foldl Nat.min a

/-- The greatest amount by which a term reduces the size, or a default without
terms. -/
def greatestAmount (r : Recurrence) (default : Nat) : Nat :=
  match r.terms.map RecursiveTerm.amount with
  | [] => default
  | a :: as => as.foldl Nat.max a

end Recurrence

/-- A level of a recursion tree. -/
structure TreeLevel where
  level : Nat
  nodes : String
  size : String
  nodeCost : String
  totalCost : String

/-- A recursion tree, described by its first levels. -/
structure RecursionTree where
  height : String
  levels : List TreeLevel
  diagram? : Option String := none

/-- What a method says about a recurrence. -/
structure MethodResult where
  /-- The method that says so. -/
  method : Method
  /-- Whether the method applies. -/
  applicable : Bool
  /-- The steps of the derivation. -/
  steps : List String
  /-- The bound that was found. -/
  complexity? : Option String
  /-- Why the bound holds, or why the method does not apply. -/
  explanation : String
  /-- The case of the master theorem that applies. -/
  masterCase? : Option Nat := none
  tree? : Option RecursionTree := none

namespace MethodResult

/-- The result of a method that does not apply. -/
def notApplicable (method : Method) (reason : String) : MethodResult :=
  { method, applicable := false, steps := [], complexity? := none, explanation := reason }

/-- The result of a method that found a bound. -/
def solved (method : Method) (steps : List String) (complexity explanation : String) :
    MethodResult :=
  { method, applicable := true, steps, complexity? := some complexity, explanation }

end MethodResult

/-- The tight bound of a class of growth given as a text. -/
def thetaOf (growth : String) : String :=
  "Θ(" ++ growth ++ ")"

end CostAnalysis
