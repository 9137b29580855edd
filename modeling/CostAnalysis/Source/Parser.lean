import CostAnalysis.Source.Lexer
import CostAnalysis.Source.Program

/-!
# Reading programs

Statements are told apart by their first word; expressions are read by
precedence climbing over a table of operators.  The first violation of the
grammar is reported with its place.

The reader moves a `Cursor` over the tokens.  Only `expression` and `statement`
refer back to themselves, and only after at least one token has been consumed,
so the number of tokens that are left bounds their depth as well as every loop.
-/

namespace CostAnalysis

/-! ## Operators -/

/-- What happens when operators of one precedence follow each other. -/
inductive Grouping where
  | left
  | right
  /-- They must not. -/
  | forbidden
deriving DecidableEq

/-- What an operator between two expressions builds. -/
inductive Infix where
  | binary (op : BinaryOp)
  | compare (op : CompareOp)

/-- An operator with its binding strength. -/
structure InfixRule where
  precedence : Nat
  grouping : Grouping
  builds : Infix

namespace InfixRule

/-- The binding strengths, loosest first. -/
def orLevel : Nat := 1

/-- The strength of a conjunction. -/
def andLevel : Nat := 2

/-- The strength of a comparison. -/
def compareLevel : Nat := 4

/-- The strength of a sum. -/
def additiveLevel : Nat := 5

/-- The strength of a product. -/
def multiplicativeLevel : Nat := 6

/-- The strength of a sign. -/
def unaryLevel : Nat := 7

/-- The strength of a power. -/
def powerLevel : Nat := 8

/-- The operator that a token is. -/
def of? : TokenKind → Option InfixRule
  | .orWord => some ⟨orLevel, .left, .binary .or⟩
  | .andWord => some ⟨andLevel, .left, .binary .and⟩
  | .plus => some ⟨additiveLevel, .left, .binary .add⟩
  | .minus => some ⟨additiveLevel, .left, .binary .sub⟩
  | .times => some ⟨multiplicativeLevel, .left, .binary .mul⟩
  | .divide => some ⟨multiplicativeLevel, .left, .binary .div⟩
  | .intDiv => some ⟨multiplicativeLevel, .left, .binary .intDiv⟩
  | .modulo => some ⟨multiplicativeLevel, .left, .binary .mod⟩
  | .power => some ⟨powerLevel, .right, .binary .pow⟩
  | .equal => some ⟨compareLevel, .forbidden, .compare .eq⟩
  | .notEqual => some ⟨compareLevel, .forbidden, .compare .ne⟩
  | .less => some ⟨compareLevel, .forbidden, .compare .lt⟩
  | .lessEqual => some ⟨compareLevel, .forbidden, .compare .le⟩
  | .greater => some ⟨compareLevel, .forbidden, .compare .gt⟩
  | .greaterEqual => some ⟨compareLevel, .forbidden, .compare .ge⟩
  | _ => none

/-- The strength that the right operand must at least have. -/
def rightLevel (r : InfixRule) : Nat :=
  if r.grouping = .right then r.precedence else r.precedence + 1

/-- The expression of an operator and its operands. -/
def build (r : InfixRule) (left right : Expr) : Expr :=
  match r.builds with
  | .binary op => .binary op left right
  | .compare op => .compare op left right

end InfixRule

/-- Whether an expression may start with a token. -/
def TokenKind.startsExpression : TokenKind → Bool
  | .identifier => true
  | .numberLiteral => true
  | .stringLiteral => true
  | .trueWord => true
  | .falseWord => true
  | .nullWord => true
  | .leftParen => true
  | .leftBracket => true
  | .leftCeil => true
  | .leftFloor => true
  | .minus => true
  | .notWord => true
  | .callWord => true
  | _ => false

/-! ## Moving over tokens -/

/-- A place in a list of tokens: the current one, those after it, and the line
of the one before. -/
structure Cursor where
  current : Token
  rest : List Token
  previousLine : Nat

/-- Reading is a step that moves the cursor or fails. -/
abbrev Parse := StateT Cursor (Except SyntaxError)

namespace Parse

/-- The current token. -/
def peek : Parse Token := do
  return (← get).current

/-- The kind of the current token. -/
def kind : Parse TokenKind := do
  return (← get).current.kind

/-- The token after the current one; at the end that is the last one. -/
def peekNext : Parse Token := do
  let c ← get
  return c.rest.headD c.current

/-- The cursor one token further; it stays on the last one.  The tokens of a
text have one mark of the end, and that is the last of them, so that this is to
stay on the mark. -/
def step (c : Cursor) : Cursor :=
  match c.rest with
  | [] => c
  | t :: ts => ⟨t, ts, c.current.line⟩

/-- Consumes the current token. -/
def advance : Parse Token := do
  let c ← get
  set (step c)
  return c.current

/-- How many tokens are left. -/
def remaining : Parse Nat := do
  return (← get).rest.length + 1

/-- Fails at the current token. -/
def fail (cause : Token → SyntaxError.Cause) : Parse α := do
  let t ← peek
  throw ⟨cause t, t.position⟩

/-- Fails because something else was expected. -/
def unexpected (expected : String) : Parse α :=
  fail fun found => .unexpected found expected

/-- Consumes the current token if it is of the given kind, and says whether it
was. -/
def accept (k : TokenKind) : Parse Bool := do
  if (← kind) = k then
    let _ ← advance
    return true
  else return false

/-- Consumes a token of the given kind. -/
def expect (k : TokenKind) (what : String) : Parse Token := do
  if (← kind) = k then advance else unexpected what

/-- Consumes a name. -/
def identifier (what : String) : Parse String := do
  return (← expect .identifier what).text

/-- Reads items divided by commas, as long as a comma follows. -/
def commaList (item : Parse α) : Nat → Parse (List α)
  | 0 => return []
  | fuel + 1 => do
    let first ← item
    if ← accept .comma then return first :: (← commaList item fuel) else return [first]

/-- Reads items divided by commas up to a closing token; there may be none. -/
def listUntil (close : TokenKind) (what : String) (item : Parse α) : Parse (List α) := do
  let items ← if (← kind) = close then pure [] else commaList item (← remaining)
  let _ ← expect close what
  return items

/-- Skips semicolons. -/
def skipSemicolons : Nat → Parse Unit
  | 0 => return ()
  | fuel + 1 => do
    if ← accept .semicolon then skipSemicolons fuel

/-! ## Expressions -/

/-- The constant that a number token stands for. -/
def number? (text : List Char) : Option Literal :=
  match Text.splitFirst '.' text with
  | some (whole, fraction) =>
    if (whole ++ fraction).all Text.isAsciiDigit then
      (Numeric.readInt (whole ++ fraction)).map fun digits =>
        .float (Numeric.Double.ofDecimal digits.natAbs (-(Int.ofNat fraction.length)))
    else none
  | none => (Numeric.readSigned 64 text).map .int

/-- Reads the arguments of a call in parentheses. -/
def arguments (expression : Parse Expr) : Parse (List Expr) := do
  let _ ← expect .leftParen "'('"
  listUntil .rightParen "')'" expression

/-- Reads an expression up to a closing token. -/
def enclosed (expression : Parse Expr) (close : TokenKind) (what : String) : Parse Expr := do
  let inner ← expression
  let _ ← expect close what
  return inner

/-- Continues a name with the fields that follow it after points. -/
def dotted : Nat → String → Parse String
  | 0, name => return name
  | fuel + 1, name => do
    if (← kind) = .dot && (← peekNext).kind = .identifier then
      let _ ← advance
      let field ← advance
      dotted fuel (name ++ "." ++ field.text)
    else return name

/-- Reads an expression that starts with its own token. -/
def primary (expression : Parse Expr) : Parse Expr := do
  let t ← peek
  match t.kind with
  | .numberLiteral =>
    let _ ← advance
    match number? t.text.toList with
    | some v => return .literal v
    | none => throw ⟨.badNumber t.text, t.position⟩
  | .stringLiteral =>
    let _ ← advance
    return .literal (.str (String.ofList (Text.trimWhile (· == '"') t.text.toList)))
  | .trueWord =>
    let _ ← advance
    return .literal (.bool true)
  | .falseWord =>
    let _ ← advance
    return .literal (.bool false)
  | .nullWord =>
    let _ ← advance
    return .literal .null
  | .leftParen =>
    let _ ← advance
    enclosed expression .rightParen "')'"
  | .leftBracket =>
    let _ ← advance
    return .array (← listUntil .rightBracket "']'" expression)
  | .leftCeil =>
    let _ ← advance
    return .call "ceil" [← enclosed expression .rightCeil "'⌉'"]
  | .leftFloor =>
    let _ ← advance
    return .call "floor" [← enclosed expression .rightFloor "'⌋'"]
  | .callWord =>
    let _ ← advance
    let name ← identifier "procedure name"
    return .call name (← arguments expression)
  | .identifier =>
    let _ ← advance
    if (← kind) = .leftParen then return .call t.text (← arguments expression)
    else return .var (← dotted (← remaining) t.text)
  | _ => unexpected "an expression"

/-- Reads the indices in brackets that follow an expression. -/
def indexed (expression : Parse Expr) : Nat → Expr → Parse Expr
  | 0, e => return e
  | fuel + 1, e => do
    if ← accept .leftBracket then
      let indices ← commaList expression (← remaining)
      let _ ← expect .rightBracket "']'"
      indexed expression fuel (indices.foldl .index e)
    else return e

/-- The negative of an operand; that of a number is a number. -/
def negative : Expr → Expr
  | .literal (.int z) => .literal (.int (-z))
  | .literal (.float x) => .literal (.float (-x))
  | e => .unary .neg e

/-- Reads an operand, given a reader of expressions of at least a given
strength. -/
def operand (binary : Nat → Parse Expr) : Parse Expr := do
  match ← kind with
  | .minus =>
    let _ ← advance
    return negative (← binary InfixRule.unaryLevel)
  | .notWord =>
    let _ ← advance
    return .unary .not (← binary InfixRule.compareLevel)
  | _ =>
    let e ← primary (binary InfixRule.orLevel)
    indexed (binary InfixRule.orLevel) (← remaining) e

/-- Fails if an operator that must not be repeated is followed by one of its
strength. -/
def refuseChain (rule : InfixRule) : Parse Unit := do
  if rule.grouping = .forbidden then
    match InfixRule.of? (← kind) with
    | some next => if next.precedence = rule.precedence then fail .chainedComparison
    | none => return ()

/-- Extends a left operand by the operators of at least the given strength that
follow it. -/
def climb (binary : Nat → Parse Expr) (least : Nat) : Nat → Expr → Parse Expr
  | 0, left => return left
  | fuel + 1, left => do
    match InfixRule.of? (← kind) with
    | none => return left
    | some rule =>
      if rule.precedence < least then return left
      else
        let _ ← advance
        let right ← binary rule.rightLevel
        refuseChain rule
        climb binary least fuel (rule.build left right)

/-- Reads an expression whose operators have at least the given strength, to a
bounded depth. -/
def binary : Nat → Nat → Parse Expr
  | 0, _ => unexpected "an expression"
  | depth + 1, least => do
    let left ← operand (binary depth)
    climb (binary depth) least (← remaining) left

/-- Reads an expression. -/
def expression : Parse Expr := do
  binary (← remaining) InfixRule.orLevel

/-! ## Statements -/

/-- Whether a token ends the words of an action line: one on another line, or
the end. -/
def endsLine (line : Nat) (t : Token) : Bool :=
  t.line ≠ line || t.kind = .endOfInput

/-- Consumes the tokens on a line. -/
def lineWords (line : Nat) : Nat → Parse (List String)
  | 0 => return []
  | fuel + 1 => do
    if endsLine line (← peek) then return []
    else
      let t ← advance
      return t.text :: (← lineWords line fuel)

/-- Whether the current name is followed by another word on its line. -/
def isActionLine : Parse Bool := do
  let first ← peek
  let second ← peekNext
  return second.line = first.line &&
    (second.kind = .identifier || second.kind = .numberLiteral || second.kind = .stringLiteral)

/-- Reads statements up to one of the given words, which is left in place. -/
def statementsUntil (statement : Parse Stmt) (close : TokenKind) : Nat → Parse (List Stmt)
  | 0 => return []
  | fuel + 1 => do
    skipSemicolons (← remaining)
    let k ← kind
    if k = close then return []
    else if k = .endOfInput then
      fail fun found => .unexpectedEnd found ("'" ++ close.text ++ "'")
    else
      let s ← statement
      return s :: (← statementsUntil statement close fuel)

/-- Reads a block between its words. -/
def block (statement : Parse Stmt) : Parse Block := do
  let _ ← expect .beginWord "'begin'"
  let body ← statementsUntil statement .endWord (← remaining)
  let _ ← expect .endWord "'end'"
  return body

/-- The span from a line to the last consumed token. -/
def spanFrom (first : Nat) : Parse LineSpan := do
  return .of first (← get).previousLine

/-- Reads a counting loop after its word. -/
def forStatement (statement : Parse Stmt) (line : Nat) : Parse Stmt := do
  let name ← identifier "loop variable"
  let _ ← expect .assign "'🡨'"
  let first ← expression
  let descending ← accept .downtoWord
  if !descending then
    let _ ← expect .toWord "'to'"
  let second ← expression
  let _ ← expect .doWord "'do'"
  let body ← block statement
  let lines ← spanFrom line
  return if descending then .forLoop lines name second first body
    else .forLoop lines name first second body

/-- Reads a loop with its test at the head, after its word. -/
def whileStatement (statement : Parse Stmt) (line : Nat) : Parse Stmt := do
  let cond ← expression
  let _ ← expect .doWord "'do'"
  let body ← block statement
  return .whileLoop (← spanFrom line) cond body

/-- Reads a loop with its test at the end, after its word. -/
def repeatStatement (statement : Parse Stmt) (line : Nat) : Parse Stmt := do
  let body ← if (← kind) = .beginWord then block statement
    else statementsUntil statement .untilWord (← remaining)
  let _ ← expect .untilWord "'until'"
  let cond ← expression
  return .whileLoop (← spanFrom line) (.unary .not cond) body

/-- Reads the other arm of a branch, where there is one. -/
def elseArm (statement : Parse Stmt) : Parse (Option Block) := do
  if ← accept .elseWord then
    if (← kind) = .ifWord then return some [← statement] else return some (← block statement)
  else return none

/-- Reads a branch after its word. -/
def ifStatement (statement : Parse Stmt) (line : Nat) : Parse Stmt := do
  let cond ← expression
  let _ ← expect .thenWord "'then'"
  let yes ← block statement
  let no ← elseArm statement
  return .branch (← spanFrom line) cond yes no

/-- Reads a return after its word; its value has to start on the same line. -/
def returnStatement (line : Nat) : Parse Stmt := do
  let next ← peek
  let value ← if next.line = line && next.kind.startsExpression then some <$> expression
    else pure none
  return .returns (← spanFrom line) value

/-- Reads a call after its word. -/
def callStatement (line : Nat) : Parse Stmt := do
  let name ← identifier "procedure name"
  let args ← arguments expression
  return .call (← spanFrom line) name args

/-- Reads a declaration after its word. -/
def declaration (line : Nat) : Parse Stmt := do
  let names ← commaList (identifier "variable name") (← remaining)
  return .declare (← spanFrom line) names

/-- Whether a value can be assigned to an expression. -/
def isAssignable : Expr → Bool
  | .var _ => true
  | .index _ _ => true
  | _ => false

/-- Whether an expression can stand as a statement. -/
def isCall : Expr → Bool
  | .call _ _ => true
  | _ => false

/-- Reads a statement that starts with a name: an action line, an assignment or
a call. -/
def simpleStatement (line : Nat) : Parse Stmt := do
  if ← isActionLine then
    let words ← lineWords line (← remaining)
    return .action (← spanFrom line) (" ".intercalate words)
  else
    let target ← expression
    if ← accept .assign then
      if !isAssignable target then fail fun found => .notAssignable found target.text
      let value ← expression
      return .assign (← spanFrom line) target value
    else if isCall target then return .evaluate (← spanFrom line) target
    else unexpected "'🡨'"

/-- Reads a statement, given a reader of the statements inside it. -/
def statementOf (statement : Parse Stmt) : Parse Stmt := do
  let t ← peek
  let line := t.line
  match t.kind with
  | .forWord => do
    let _ ← advance
    forStatement statement line
  | .whileWord => do
    let _ ← advance
    whileStatement statement line
  | .repeatWord => do
    let _ ← advance
    repeatStatement statement line
  | .ifWord => do
    let _ ← advance
    ifStatement statement line
  | .returnWord => do
    let _ ← advance
    returnStatement line
  | .callWord => do
    let _ ← advance
    callStatement line
  | .varWord => do
    let _ ← advance
    declaration line
  | .identifier => simpleStatement line
  | k =>
    if k.startsExpression then do
      let e ← expression
      return .evaluate (← spanFrom line) e
    else unexpected "a statement"

/-- Reads a statement to a bounded depth of blocks. -/
def statementTo : Nat → Parse Stmt
  | 0 => unexpected "a statement"
  | depth + 1 => statementOf (statementTo depth)

/-- Reads a statement. -/
def statement : Parse Stmt := do
  statementTo (← remaining)

/-! ## Procedures -/

/-- Skips the dimensions of an array parameter up to the bracket that closes
them. -/
def dimensions : Nat → Nat → Parse Unit
  | 0, _ => return ()
  | _ + 1, 0 => return ()
  | fuel + 1, depth + 1 => do
    match ← kind with
    | .leftBracket =>
      let _ ← advance
      dimensions fuel (depth + 2)
    | .rightBracket =>
      let _ ← advance
      dimensions fuel depth
    | .endOfInput => fail .unterminatedArrayParameter
    | _ =>
      let _ ← advance
      dimensions fuel (depth + 1)

/-- Skips any number of dimensions in brackets, and says whether there were
any. -/
def arrayMarks : Nat → Bool → Parse Bool
  | 0, isArray => return isArray
  | fuel + 1, isArray => do
    if ← accept .leftBracket then
      dimensions (← remaining) 1
      arrayMarks fuel true
    else return isArray

/-- Reads a parameter. -/
def parameter : Parse Param := do
  let name ← identifier "parameter name"
  return ⟨name, ← arrayMarks (← remaining) false⟩

/-- Reads a procedure. -/
def function : Parse Function := do
  let line := (← peek).line
  let _ ← accept .procedureWord
  let name ← identifier "procedure name"
  let _ ← expect .leftParen "'('"
  let params ← listUntil .rightParen "')'" parameter
  let body ← block statement
  return ⟨name, params, body, ← spanFrom line⟩

/-- Reads procedures up to the end of the input. -/
def functions : Nat → Parse (List Function)
  | 0 => return []
  | fuel + 1 => do
    skipSemicolons (← remaining)
    if (← kind) = .endOfInput then return []
    else
      let f ← function
      return f :: (← functions fuel)

/-- Reads a program: at least one procedure. -/
def program : Parse Program := do
  let fs ← functions (← remaining)
  if fs.isEmpty then fail .noProcedure
  return ⟨fs⟩

end Parse

/-- Reads a program from a list of tokens. -/
def Program.ofTokens (tokens : List Token) : Except SyntaxError Program :=
  match tokens with
  | [] => .error ⟨.noProcedure ⟨.endOfInput, "", {}⟩, {}⟩
  | t :: ts => (Parse.program.run ⟨t, ts, 1⟩).map Prod.fst

/-- Reads a program. -/
def Program.parse (source : String) : Except SyntaxError Program := do
  Program.ofTokens (← tokenize source)

end CostAnalysis
