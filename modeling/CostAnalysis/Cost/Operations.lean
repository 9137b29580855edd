import CostAnalysis.Source.Program
import CostAnalysis.Algebra.Formula.Basic
import CostAnalysis.Text.Lowercase

/-!
# Operations of expressions

Two views of an expression: the number of operations that its evaluation takes,
and the formula that its value is, where that can be said without running the
program.
-/

namespace CostAnalysis.Expr

mutual

/-- Names and constants are free; every operator, comparison and call costs one
operation. -/
def operations : Expr → Nat
  | .var _ => 0
  | .literal _ => 0
  | .binary _ a b => 1 + operations a + operations b
  | .unary _ a => 1 + operations a
  | .compare _ a b => 1 + operations a + operations b
  | .call _ args => 1 + operationsAll args
  | .index a i => operations a + operations i
  | .array es => operationsAll es
termination_by structural e => e

/-- The operations of a list of expressions. -/
def operationsAll : List Expr → Nat
  | [] => 0
  | e :: es => operations e + operationsAll es
termination_by structural es => es

end

/-- The formula that a binary operator builds; remainders and logic have
none. -/
def binaryFormula? (op : BinaryOp) (a b : Formula) : Option Formula :=
  match op with
  | .add => some (a.add b)
  | .sub => some (a.sub b)
  | .mul => some (a.mul b)
  | .div => some (a.div b)
  | .intDiv => some (a.div b)
  | .pow => some (a.pow b)
  | _ => none

/-- The kinds of functions of one argument that have a formula. -/
inductive KnownFunction where
  /-- Rounding, which costs ignore. -/
  | rounding
  | logarithm
  | squareRoot
  /-- The size of the input. -/
  | size

/-- The known function of a name, in any case of letters. -/
def KnownFunction.ofName? (name : String) : Option KnownFunction :=
  match String.ofList (Text.lowercase name.toList) with
  | "floor" => some .rounding
  | "ceil" => some .rounding
  | "round" => some .rounding
  | "trunc" => some .rounding
  | "log" => some .logarithm
  | "lg" => some .logarithm
  | "ln" => some .logarithm
  | "log2" => some .logarithm
  | "sqrt" => some .squareRoot
  | "length" => some .size
  | "len" => some .size
  | "size" => some .size
  | "count" => some .size
  | _ => none

mutual

/-- The formula of an arithmetic expression, with its variables renamed.  An
expression that depends on stored values has none. -/
def formula? (rename : String → String) : Expr → Option Formula
  | .var name => some (.var (rename name))
  | .literal (.int z) => some (Formula.int z)
  | .literal (.float x) => (Scalar.ofDouble? x).map .num
  | .literal _ => none
  | .binary op a b =>
    match formula? rename a, formula? rename b with
    | some e, some f => binaryFormula? op e f
    | _, _ => none
  | .unary .neg a => (formula? rename a).map Formula.neg
  | .unary .not _ => none
  | .call name args =>
    match KnownFunction.ofName? name, soleFormula? rename args with
    | some .size, some _ => some (.var "n")
    | some .rounding, some arg => arg
    | some .logarithm, some arg => arg.map Formula.log
    | some .squareRoot, some arg => arg.map fun e => e.pow (.num Scalar.half)
    | _, _ => none
  | .compare _ _ _ => none
  | .index _ _ => none
  | .array _ => none
termination_by structural e => e

/-- The formula, if any, of the only expression of a list. -/
def soleFormula? (rename : String → String) : List Expr → Option (Option Formula)
  | [] => none
  | e :: es => if es.isEmpty then some (formula? rename e) else none
termination_by structural es => es

end

end CostAnalysis.Expr
