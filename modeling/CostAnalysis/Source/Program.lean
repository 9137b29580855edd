import CostAnalysis.Numeric.Decimal
import CostAnalysis.Source.Position

/-!
# Programs

The syntax trees of structured pseudocode.  A program is a list of procedures; a
block is a list of statements; every statement carries the lines it spans.
Loops that count down are stored with their bounds in ascending order, and a
loop with its test at the end as one with the negated test at its head, so that
a cost depends on the tree alone.
-/

namespace CostAnalysis

/-! ## Expressions -/

/-- Operators with two operands that are no comparisons. -/
inductive BinaryOp where
  | add
  | sub
  | mul
  | div
  | intDiv
  | mod
  | pow
  | and
  | or
deriving DecidableEq

/-- The spelling of an operator. -/
def BinaryOp.symbol : BinaryOp → String
  | .add => "+"
  | .sub => "-"
  | .mul => "*"
  | .div => "/"
  | .intDiv => "div"
  | .mod => "mod"
  | .pow => "^"
  | .and => "and"
  | .or => "or"

/-- Operators that are words need blanks around them. -/
def BinaryOp.isWord : BinaryOp → Bool
  | .intDiv => true
  | .mod => true
  | .and => true
  | .or => true
  | _ => false

/-- Operators with one operand. -/
inductive UnaryOp where
  | neg
  | not
deriving DecidableEq

/-- The spelling of an operator. -/
def UnaryOp.symbol : UnaryOp → String
  | .neg => "-"
  | .not => "not"

/-- Comparisons. -/
inductive CompareOp where
  | eq
  | ne
  | lt
  | le
  | gt
  | ge
deriving DecidableEq

/-- The spelling of a comparison. -/
def CompareOp.symbol : CompareOp → String
  | .eq => "=="
  | .ne => "!="
  | .lt => "<"
  | .le => "<="
  | .gt => ">"
  | .ge => ">="

/-- Constants of the language. -/
inductive Literal where
  | int (value : Int)
  | float (value : Float)
  | bool (value : Bool)
  | str (value : String)
  | null

/-- The text of a constant. -/
def Literal.text : Literal → String
  | .int z => toString z
  | .float x => Numeric.Decimal.plain x
  | .bool b => if b then "true" else "false"
  | .str s => "\"" ++ s ++ "\""
  | .null => "null"

/-- Expressions. -/
inductive Expr where
  | var (name : String)
  | literal (value : Literal)
  | binary (op : BinaryOp) (left right : Expr)
  | unary (op : UnaryOp) (operand : Expr)
  | compare (op : CompareOp) (left right : Expr)
  | call (name : String) (args : List Expr)
  | index (array position : Expr)
  | array (elements : List Expr)

namespace Expr

instance : Inhabited Expr := ⟨.var ""⟩

/-- An integer constant. -/
def int (z : Int) : Expr := .literal (.int z)

/-- The immediate subexpressions. -/
def children : Expr → List Expr
  | .var _ => []
  | .literal _ => []
  | .binary _ a b => [a, b]
  | .unary _ a => [a]
  | .compare _ a b => [a, b]
  | .call _ args => args
  | .index a i => [a, i]
  | .array es => es

/-- The variable that an element or a dotted field belongs to. -/
def baseName? : Expr → Option String
  | .var name => some (String.ofList (name.toList.takeWhile (· != '.')))
  | .index a _ => baseName? a
  | _ => none

mutual

/-- The text of an expression with every operation in parentheses and blanks
around operators. -/
def text : Expr → String
  | .var name => name
  | .literal v => v.text
  | .binary op a b => "(" ++ text a ++ " " ++ op.symbol ++ " " ++ text b ++ ")"
  | .compare op a b => text a ++ " " ++ op.symbol ++ " " ++ text b
  | .unary .neg a => "-" ++ text a
  | .unary .not a => "not " ++ text a
  | .call name args => name ++ "(" ++ ", ".intercalate (texts args) ++ ")"
  | .index a i => text a ++ "[" ++ text i ++ "]"
  | .array es => "[" ++ ", ".intercalate (texts es) ++ "]"
termination_by structural e => e

/-- The texts of a list of expressions. -/
def texts : List Expr → List String
  | [] => []
  | e :: es => text e :: texts es
termination_by structural es => es

end

mutual

/-- The text of an expression without blanks or parentheses, as in `n-1`. -/
def compactText : Expr → String
  | .var name => name
  | .literal v => v.text
  | .binary op a b =>
    if op.isWord then compactText a ++ " " ++ op.symbol ++ " " ++ compactText b
    else compactText a ++ op.symbol ++ compactText b
  | .compare op a b => compactText a ++ op.symbol ++ compactText b
  | .unary .neg a => "-" ++ compactText a
  | .unary .not a => "not " ++ compactText a
  | .call name args => name ++ "(" ++ ",".intercalate (compactTexts args) ++ ")"
  | .index a i => compactText a ++ "[" ++ compactText i ++ "]"
  | .array _ => "?"
termination_by structural e => e

/-- The compact texts of a list of expressions. -/
def compactTexts : List Expr → List String
  | [] => []
  | e :: es => compactText e :: compactTexts es
termination_by structural es => es

end

mutual

/-- The calls in an expression, each with its arguments, an outer one before
those inside it. -/
def calls : Expr → List (String × List Expr)
  | .var _ => []
  | .literal _ => []
  | .binary _ a b => calls a ++ calls b
  | .unary _ a => calls a
  | .compare _ a b => calls a ++ calls b
  | .call name args => (name, args) :: callsAll args
  | .index a i => calls a ++ calls i
  | .array es => callsAll es
termination_by structural e => e

/-- The calls in a list of expressions. -/
def callsAll : List Expr → List (String × List Expr)
  | [] => []
  | e :: es => calls e ++ callsAll es
termination_by structural es => es

end

mutual

/-- The variables of an expression in order of occurrence. -/
def names : Expr → List String
  | .var name => [name]
  | .literal _ => []
  | .binary _ a b => names a ++ names b
  | .unary _ a => names a
  | .compare _ a b => names a ++ names b
  | .call _ args => namesAll args
  | .index a i => names a ++ names i
  | .array es => namesAll es
termination_by structural e => e

/-- The variables of a list of expressions. -/
def namesAll : List Expr → List String
  | [] => []
  | e :: es => names e ++ namesAll es
termination_by structural es => es

end

end Expr

/-! ## Statements -/

/-- Statements, each with the lines it spans. -/
inductive Stmt where
  | assign (lines : LineSpan) (target value : Expr)
  | declare (lines : LineSpan) (names : List String)
  /-- Runs the body for each integer from `start` to `stop`. -/
  | forLoop (lines : LineSpan) (var : String) (start stop : Expr) (body : List Stmt)
  | whileLoop (lines : LineSpan) (cond : Expr) (body : List Stmt)
  | branch (lines : LineSpan) (cond : Expr) (yes : List Stmt) (no : Option (List Stmt))
  | returns (lines : LineSpan) (value : Option Expr)
  | evaluate (lines : LineSpan) (expr : Expr)
  | call (lines : LineSpan) (name : String) (args : List Expr)
  /-- A line of free text. -/
  | action (lines : LineSpan) (text : String)

/-- A sequence of statements. -/
abbrev Block := List Stmt

namespace Stmt

/-- The lines that a statement spans. -/
def lines : Stmt → LineSpan
  | .assign l _ _ => l
  | .declare l _ => l
  | .forLoop l _ _ _ _ => l
  | .whileLoop l _ _ => l
  | .branch l _ _ _ => l
  | .returns l _ => l
  | .evaluate l _ => l
  | .call l _ _ => l
  | .action l _ => l

/-- The name of the kind of a statement in reports. -/
def typeName : Stmt → String
  | .assign _ _ _ => "Assign"
  | .declare _ _ => "VarDeclaration"
  | .forLoop _ _ _ _ _ => "For"
  | .whileLoop _ _ _ => "While"
  | .branch _ _ _ _ => "If"
  | .returns _ _ => "Return"
  | .evaluate _ _ => "ExprStmt"
  | .call _ _ _ => "CallStatement"
  | .action _ _ => "ActionStatement"

/-- The expressions of a statement itself, not of the blocks in it. -/
def expressions : Stmt → List Expr
  | .assign _ target value => [target, value]
  | .forLoop _ _ start stop _ => [start, stop]
  | .whileLoop _ cond _ => [cond]
  | .branch _ cond _ _ => [cond]
  | .returns _ value => value.toList
  | .evaluate _ e => [e]
  | .call _ _ args => args
  | .declare _ _ => []
  | .action _ _ => []

/-- The blocks in a statement, in source order. -/
def blocks : Stmt → List Block
  | .forLoop _ _ _ _ body => [body]
  | .whileLoop _ _ body => [body]
  | .branch _ _ yes (some no) => [yes, no]
  | .branch _ _ yes none => [yes]
  | _ => []

mutual

/-- A statement and all statements inside it, each before those inside it. -/
def preorder : Stmt → List Stmt
  | .forLoop l v s e body => .forLoop l v s e body :: preorderAll body
  | .whileLoop l c body => .whileLoop l c body :: preorderAll body
  | .branch l c yes (some no) => .branch l c yes (some no) :: (preorderAll yes ++ preorderAll no)
  | .branch l c yes none => .branch l c yes none :: preorderAll yes
  | .assign l t v => [.assign l t v]
  | .declare l ns => [.declare l ns]
  | .returns l v => [.returns l v]
  | .evaluate l e => [.evaluate l e]
  | .call l n args => [.call l n args]
  | .action l t => [.action l t]
termination_by structural s => s

/-- All statements of a block, at every depth. -/
def preorderAll : List Stmt → List Stmt
  | [] => []
  | s :: ss => preorder s ++ preorderAll ss
termination_by structural ss => ss

end

/-- The calls of a statement itself, that of a call statement first. -/
def calls (s : Stmt) : List (String × List Expr) :=
  (match s with
    | .call _ name args => [(name, args)]
    | _ => []) ++ Expr.callsAll s.expressions

end Stmt

/-! ## Procedures -/

/-- A parameter, with whether it was declared as an array. -/
structure Param where
  name : String
  isArray : Bool

/-- A procedure. -/
structure Function where
  name : String
  params : List Param
  body : Block
  lines : LineSpan

/-- Whether a procedure has a parameter of the given name. -/
def Function.hasParam (f : Function) (name : String) : Bool :=
  f.params.any fun p => p.name == name

/-- A program. -/
structure Program where
  functions : List Function

namespace Program

/-- The first procedure of the given name. -/
def function? (p : Program) (name : String) : Option Function :=
  p.functions.find? fun f => f.name == name

/-- The number of statements, at every depth. -/
def statementCount (p : Program) : Nat :=
  p.functions.foldl (fun n f => n + (Stmt.preorderAll f.body).length) 0

end Program

end CostAnalysis
