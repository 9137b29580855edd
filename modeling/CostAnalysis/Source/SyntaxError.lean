import CostAnalysis.Source.Token

/-!
# Errors in source texts

The first violation of the grammar ends the reading of a program.  An error is
its cause and its place; the wording is derived from both.
-/

namespace CostAnalysis

/-- What is wrong with a source text. -/
inductive SyntaxError.Cause where
  /-- The text starts no token. -/
  | badCharacter (text : String)
  /-- Something else stands where `expected` should. -/
  | unexpected (found : Token) (expected : String)
  | noProcedure (found : Token)
  | unterminatedArrayParameter (found : Token)
  | unexpectedEnd (found : Token) (expected : String)
  /-- The target of an assignment is neither a variable nor an element. -/
  | notAssignable (found : Token) (target : String)
  | chainedComparison (found : Token)
  /-- A number that does not fit or is not written in ASCII digits. -/
  | badNumber (text : String)
deriving DecidableEq

/-- A violation of the grammar. -/
structure SyntaxError where
  cause : SyntaxError.Cause
  position : Position
deriving DecidableEq

namespace SyntaxError

/-- The error in words, without its place. -/
def message (e : SyntaxError) : String :=
  match e.cause with
  | .badCharacter text =>
    "Lexical error at line " ++ toString e.position.line ++ ", column " ++
      toString e.position.column ++ ": unexpected character '" ++ text ++ "'"
  | .unexpected found expected => "Unexpected " ++ found.describe ++ ", expected " ++ expected
  | .noProcedure _ => "Expected a procedure definition"
  | .unterminatedArrayParameter _ => "Unterminated array parameter"
  | .unexpectedEnd _ expected => "Unexpected end of input, expected " ++ expected
  | .notAssignable _ target => "Cannot assign to '" ++ target ++ "'"
  | .chainedComparison _ => "Comparison operators cannot be chained"
  | .badNumber text => "Invalid number '" ++ text ++ "'"

/-- What would have been accepted, where that can be said. -/
def expected (e : SyntaxError) : List String :=
  match e.cause with
  | .unexpected _ expected => [expected]
  | .noProcedure _ => ["procedure"]
  | .unterminatedArrayParameter _ => ["']'"]
  | .unexpectedEnd _ expected => [expected]
  | _ => []

/-- What was found. -/
def found (e : SyntaxError) : String :=
  match e.cause with
  | .badCharacter text => text
  | .unexpected found _ => found.describe
  | .noProcedure found => found.describe
  | .unterminatedArrayParameter found => found.describe
  | .unexpectedEnd found _ => found.describe
  | .notAssignable found _ => found.describe
  | .chainedComparison found => found.describe
  | .badNumber text => text

/-- The error in words, with its place. -/
def text (e : SyntaxError) : String :=
  e.message ++ " at " ++ e.position.text

end SyntaxError

end CostAnalysis
