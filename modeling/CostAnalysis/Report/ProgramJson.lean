import CostAnalysis.Report.Json
import CostAnalysis.Source.Program

/-!
# Programs in reports

A node of a syntax tree is written as an object whose field `type` names its
kind; statements and procedures carry the lines they span.
-/

namespace CostAnalysis

/-- The two ends of a span, `null` where it is unknown. -/
def LineSpan.fields (span : LineSpan) : List (String × Json) :=
  [("line_start", .orNull (span.first?.map .nat)), ("line_end", .orNull (span.last?.map .nat))]

/-- A constant. -/
def Literal.toJson : Literal → Json
  | .int z => .int z
  | .float x => .double x
  | .bool b => .bool b
  | .str s => .str s
  | .null => .null

/-- A node of a syntax tree of the given kind. -/
def Json.node (kind : String) (fields : List (String × Json)) : Json :=
  .obj (("type", .str kind) :: fields)

mutual

/-- An expression. -/
def Expr.toJson : Expr → Json
  | .var name => .node "Var" [("name", .str name)]
  | .literal v => .node "Literal" [("value", v.toJson)]
  | .binary op a b =>
    .node "BinOp" [("op", .str op.symbol), ("left", toJson a), ("right", toJson b)]
  | .unary op a => .node "UnOp" [("op", .str op.symbol), ("operand", toJson a)]
  | .compare op a b =>
    .node "Compare" [("op", .str op.symbol), ("left", toJson a), ("right", toJson b)]
  | .call name args => .node "Call" [("name", .str name), ("args", .arr (toJsonAll args))]
  | .index a i => .node "ArrayAccess" [("array", toJson a), ("index", toJson i)]
  | .array es => .node "ArrayLiteral" [("elements", .arr (toJsonAll es))]
termination_by structural e => e

/-- A list of expressions. -/
def Expr.toJsonAll : List Expr → List Json
  | [] => []
  | e :: es => Expr.toJson e :: Expr.toJsonAll es
termination_by structural es => es

end

mutual

/-- A statement. -/
def Stmt.toJson : Stmt → Json
  | .assign l target value =>
    .node "Assign" ([("target", target.toJson), ("value", value.toJson)] ++ l.fields)
  | .declare l names => .node "VarDeclaration" (("names", .strs names) :: l.fields)
  | .forLoop l var start stop body =>
    .node "For" ([("var", .str var), ("start", start.toJson), ("end", stop.toJson),
      ("body", .arr (toJsonAll body))] ++ l.fields)
  | .whileLoop l cond body =>
    .node "While" ([("cond", cond.toJson), ("body", .arr (toJsonAll body))] ++ l.fields)
  | .branch l cond yes (some no) =>
    .node "If" ([("cond", cond.toJson), ("then", .arr (toJsonAll yes)),
      ("else", .arr (toJsonAll no))] ++ l.fields)
  | .branch l cond yes none =>
    .node "If" ([("cond", cond.toJson), ("then", .arr (toJsonAll yes))] ++ l.fields)
  | .returns l value => .node "Return" (("value", .orNull (value.map Expr.toJson)) :: l.fields)
  | .evaluate l e => .node "ExprStmt" (("expr", e.toJson) :: l.fields)
  | .call l name args =>
    .node "CallStatement" ([("name", .str name), ("args", .arr (Expr.toJsonAll args))] ++ l.fields)
  | .action l text => .node "ActionStatement" (("text", .str text) :: l.fields)
termination_by structural s => s

/-- A list of statements. -/
def Stmt.toJsonAll : List Stmt → List Json
  | [] => []
  | s :: ss => Stmt.toJson s :: Stmt.toJsonAll ss
termination_by structural ss => ss

end

/-- A procedure. -/
def Function.toJson (f : Function) : Json :=
  .obj ([("name", .str f.name),
    ("params", .arr (f.params.map fun p =>
      .obj [("name", .str p.name), ("is_array", .bool p.isArray)])),
    ("body", .arr (Stmt.toJsonAll f.body))] ++ f.lines.fields)

/-- A program. -/
def Program.toJson (p : Program) : Json :=
  .obj [("functions", .arr (p.functions.map Function.toJson))]

end CostAnalysis
