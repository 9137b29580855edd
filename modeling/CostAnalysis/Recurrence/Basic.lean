import CostAnalysis.Numeric.Word

/-!
# Recursive terms and the classes of recurrences

The right side of a recurrence `T(n) = ... + f(n)` is a sum of terms `aT(n/b)`
or `aT(n-b)` and the work `f(n)` outside the recursive calls.  Its terms alone
decide which class it belongs to, and the class decides in which order the
methods of solution are preferred.
-/

namespace CostAnalysis

/-- How a recursive call reduces the size of the problem. -/
inductive ReductionKind where
  | division
  | subtraction
deriving DecidableEq

/-- The kind as an identifier in reports. -/
def ReductionKind.tag : ReductionKind → String
  | .division => "division"
  | .subtraction => "subtraction"

/-- A term `aT(n/b)` or `aT(n-b)`. -/
structure RecursiveTerm where
  coefficient : Nat
  kind : ReductionKind
  amount : Nat
deriving DecidableEq

namespace RecursiveTerm

/-- Whether the term divides the size. -/
def isDivision (t : RecursiveTerm) : Bool :=
  t.kind == .division

/-- The reduced size, `n/b` or `n-b`. -/
def argument (t : RecursiveTerm) : String :=
  match t.kind with
  | .division => "n/" ++ toString t.amount
  | .subtraction => "n-" ++ toString t.amount

/-- The text of a coefficient, which is left out if it is one. -/
def coefficientText (a : Nat) : String :=
  if a = 1 then "" else toString a

/-- The text of a term. -/
def text (t : RecursiveTerm) : String :=
  coefficientText t.coefficient ++ "T(" ++ t.argument ++ ")"

/-- The sum of two coefficients, which are machine words of 32 bits. -/
def addCoefficients (a b : Nat) : Nat :=
  (a + b) % Numeric.twoTo 32

/-- Adds a term to a sum; a term of the same size only raises the
coefficient. -/
def merge (t : RecursiveTerm) : List RecursiveTerm → List RecursiveTerm
  | [] => [t]
  | u :: us =>
    if u.kind = t.kind ∧ u.amount = t.amount then
      { u with coefficient := addCoefficients u.coefficient t.coefficient } :: us
    else u :: merge t us

/-- The number of recursive calls of a sum of terms. -/
def totalCoefficient (terms : List RecursiveTerm) : Nat :=
  terms.foldl (fun total t => addCoefficients total t.coefficient) 0

end RecursiveTerm

/-- The methods of solution. -/
inductive Method where
  | master
  | iteration
  | tree
  | characteristic
  | substitution
deriving DecidableEq

namespace Method

/-- The method as an identifier in reports. -/
def tag : Method → String
  | .master => "master"
  | .iteration => "iteration"
  | .tree => "tree"
  | .characteristic => "characteristic"
  | .substitution => "substitution"

/-- All methods. -/
def all : List Method :=
  [.master, .iteration, .tree, .characteristic, .substitution]

end Method

/-- The classes of recurrences. -/
inductive RecurrenceClass where
  /-- One division, called once. -/
  | singleDivision
  /-- One division, called several times. -/
  | equalDivision
  /-- Two different divisions. -/
  | twoDivisions
  /-- Three or more different divisions. -/
  | manyDivisions
  /-- One subtraction, called once. -/
  | chain
  /-- One subtraction, called several times. -/
  | branchingChain
  /-- Several different subtractions. -/
  | mixedChain
deriving DecidableEq

/-- Why a list of terms belongs to no class. -/
inductive ClassFault where
  | noTerm
  | mixedKinds
deriving DecidableEq

/-- The fault in words. -/
def ClassFault.reason : ClassFault → String
  | .noTerm => "no recursive term"
  | .mixedKinds => "division and subtraction terms are mixed"

namespace RecurrenceClass

/-- The class as an identifier in reports. -/
def tag : RecurrenceClass → String
  | .singleDivision => "F0"
  | .equalDivision => "F1"
  | .twoDivisions => "F2"
  | .manyDivisions => "F3"
  | .chain => "F4"
  | .branchingChain => "F5"
  | .mixedChain => "F6"

/-- The general form of the recurrences of a class. -/
def form : RecurrenceClass → String
  | .singleDivision => "T(n) = T(n/b) + f(n)"
  | .equalDivision => "T(n) = aT(n/b) + f(n)"
  | .twoDivisions => "T(n) = T(n/b) + T(n/c) + f(n)"
  | .manyDivisions => "T(n) = T(n/b1) + ... + T(n/bk) + f(n)"
  | .chain => "T(n) = T(n-b) + f(n)"
  | .branchingChain => "T(n) = aT(n-b) + f(n)"
  | .mixedChain => "T(n) = aT(n-b) + cT(n-d) + f(n)"

/-- The class in words. -/
def description : RecurrenceClass → String
  | .singleDivision => "divide and conquer, single subproblem"
  | .equalDivision => "divide and conquer, several equal subproblems"
  | .twoDivisions => "divide and conquer, two subproblem sizes"
  | .manyDivisions => "divide and conquer, many subproblem sizes"
  | .chain => "decrease and conquer, linear chain"
  | .branchingChain => "decrease and conquer, branching"
  | .mixedChain => "multiple subtraction terms (Fibonacci-like)"

/-- Whether the terms of the class divide the size. -/
def isDivision : RecurrenceClass → Bool
  | .singleDivision => true
  | .equalDivision => true
  | .twoDivisions => true
  | .manyDivisions => true
  | .chain => false
  | .branchingChain => false
  | .mixedChain => false

/-- The methods that are preferred for a class, the most preferred first. -/
def priority : RecurrenceClass → List Method
  | .singleDivision => [.master, .iteration, .tree, .substitution]
  | .equalDivision => [.master, .iteration, .tree, .substitution]
  | .twoDivisions => [.tree, .substitution]
  | .manyDivisions => [.tree, .substitution]
  | .chain => [.characteristic, .iteration, .substitution]
  | .branchingChain => [.characteristic, .iteration, .tree, .substitution]
  | .mixedChain => [.characteristic, .tree, .substitution]

/-- All methods, the preferred ones first. -/
def methodOrder (c : RecurrenceClass) : List Method :=
  c.priority ++ Method.all.filter fun m => !c.priority.contains m

/-- The class of a list of terms. -/
def classify : List RecursiveTerm → Except ClassFault RecurrenceClass
  | [] => .error .noTerm
  | t :: ts =>
    if ts.any fun u => u.kind != t.kind then .error .mixedKinds
    else
      match t.kind, ts with
      | .division, [] => .ok (if t.coefficient = 1 then .singleDivision else .equalDivision)
      | .division, [_] => .ok .twoDivisions
      | .division, _ => .ok .manyDivisions
      | .subtraction, [] => .ok (if t.coefficient = 1 then .chain else .branchingChain)
      | .subtraction, _ => .ok .mixedChain

end RecurrenceClass

end CostAnalysis
