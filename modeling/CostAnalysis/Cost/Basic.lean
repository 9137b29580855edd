import CostAnalysis.Algebra.Formula.Reader

/-!
# Costs

A cost is a triple of formulas: what a piece of a program needs in the best, the
average and the worst case.
-/

namespace CostAnalysis

/-- The cost of a statement, a line or a program. -/
structure Cost where
  best : Formula
  average : Formula
  worst : Formula

namespace Cost

/-- The same formula in all cases. -/
def uniform (e : Formula) : Cost :=
  ⟨e, e, e⟩

/-- No cost at all. -/
def zero : Cost :=
  uniform Formula.zero

/-- The same number in all cases. -/
def constant (z : Int) : Cost :=
  uniform (Formula.int z)

/-- The cost that three texts describe; fragments that are no formulas become
opaque. -/
def ofTexts (best average worst : String) : Cost :=
  ⟨(Formula.readLenient best).1, (Formula.readLenient average).1, (Formula.readLenient worst).1⟩

/-- Applies a function in each case. -/
def map (f : Formula → Formula) (c : Cost) : Cost :=
  ⟨f c.best, f c.average, f c.worst⟩

/-- Whether the cost plainly is zero in each case. -/
def isZero (c : Cost) : Bool :=
  c.best.isZero && c.average.isZero && c.worst.isZero

/-- The cost of two pieces one after the other. -/
def add (c d : Cost) : Cost :=
  ⟨c.best.add d.best, c.average.add d.average, c.worst.add d.worst⟩

/-- A multiple. -/
def scale (c : Cost) (factor : Scalar) : Cost :=
  c.map fun e => e.scale factor

/-- The sum over a range, in each case. -/
def sumOver (c : Cost) (index : String) (start stop : Formula) : Cost :=
  c.map fun e => Formula.sum e index start stop

/-- The cost of a branch: the guard is paid always, and then the cheaper arm,
the mean of both arms weighted by the probability of the first one, or the
dearer arm. -/
def choice (guard : Formula) (yes no : Cost) (probability : Scalar) : Cost where
  best := guard.add (yes.best.min no.best)
  average :=
    (guard.add (yes.average.scale probability)).add (no.average.scale (1 - probability))
  worst := guard.add (yes.worst.max no.worst)

/-- The cost in words. -/
def text (c : Cost) : String :=
  "best: " ++ c.best.text ++ ", avg: " ++ c.average.text ++ ", worst: " ++ c.worst.text

end Cost

end CostAnalysis
