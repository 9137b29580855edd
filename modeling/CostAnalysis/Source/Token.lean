import CostAnalysis.Source.Position

/-!
# Tokens

The words of the pseudocode dialect.  Blanks, line breaks and comments are no
tokens; a token keeps its position, so that statements can be traced to lines.
-/

namespace CostAnalysis

/-- The kinds of tokens. -/
inductive TokenKind where
  | procedureWord
  | beginWord
  | endWord
  | varWord
  | callWord
  | returnWord
  | ifWord
  | thenWord
  | elseWord
  | forWord
  | toWord
  | downtoWord
  | doWord
  | whileWord
  | repeatWord
  | untilWord
  | trueWord
  | falseWord
  | nullWord
  | andWord
  | orWord
  | notWord
  | intDiv
  | modulo
  | plus
  | minus
  | times
  | divide
  | power
  | equal
  | notEqual
  | less
  | greater
  | lessEqual
  | greaterEqual
  | assign
  | leftParen
  | rightParen
  | leftBracket
  | rightBracket
  | leftCeil
  | rightCeil
  | leftFloor
  | rightFloor
  | dot
  | comma
  | semicolon
  | colon
  | stringLiteral
  | numberLiteral
  | identifier
  | endOfInput
deriving DecidableEq

/-- The canonical spelling of a kind, or the name of a class of tokens. -/
def TokenKind.text : TokenKind → String
  | .procedureWord => "procedure"
  | .beginWord => "begin"
  | .endWord => "end"
  | .varWord => "var"
  | .callWord => "CALL"
  | .returnWord => "return"
  | .ifWord => "if"
  | .thenWord => "then"
  | .elseWord => "else"
  | .forWord => "for"
  | .toWord => "to"
  | .downtoWord => "downto"
  | .doWord => "do"
  | .whileWord => "while"
  | .repeatWord => "repeat"
  | .untilWord => "until"
  | .trueWord => "true"
  | .falseWord => "false"
  | .nullWord => "null"
  | .andWord => "and"
  | .orWord => "or"
  | .notWord => "not"
  | .intDiv => "div"
  | .modulo => "mod"
  | .plus => "+"
  | .minus => "-"
  | .times => "*"
  | .divide => "/"
  | .power => "^"
  | .equal => "="
  | .notEqual => "!="
  | .less => "<"
  | .greater => ">"
  | .lessEqual => "<="
  | .greaterEqual => ">="
  | .assign => "🡨"
  | .leftParen => "("
  | .rightParen => ")"
  | .leftBracket => "["
  | .rightBracket => "]"
  | .leftCeil => "⌈"
  | .rightCeil => "⌉"
  | .leftFloor => "⌊"
  | .rightFloor => "⌋"
  | .dot => "."
  | .comma => ","
  | .semicolon => ";"
  | .colon => ":"
  | .stringLiteral => "STRING"
  | .numberLiteral => "NUMBER"
  | .identifier => "IDENTIFIER"
  | .endOfInput => "EOF"

/-- The reserved words. -/
def TokenKind.keywords : List (String × TokenKind) :=
  [("procedure", .procedureWord), ("function", .procedureWord), ("begin", .beginWord),
    ("end", .endWord), ("var", .varWord), ("CALL", .callWord), ("call", .callWord),
    ("return", .returnWord), ("if", .ifWord), ("then", .thenWord), ("else", .elseWord),
    ("for", .forWord), ("to", .toWord), ("downto", .downtoWord), ("do", .doWord),
    ("while", .whileWord), ("repeat", .repeatWord), ("until", .untilWord), ("true", .trueWord),
    ("false", .falseWord), ("null", .nullWord), ("and", .andWord), ("or", .orWord),
    ("not", .notWord), ("div", .intDiv), ("mod", .modulo)]

/-- The spellings made of signs; one that another begins with comes later. -/
def TokenKind.signs : List (String × TokenKind) :=
  [("==", .equal), ("!=", .notEqual), ("<>", .notEqual), ("<=", .lessEqual), (">=", .greaterEqual),
    ("%", .modulo), ("+", .plus), ("-", .minus), ("*", .times), ("/", .divide), ("^", .power),
    ("=", .equal), ("≠", .notEqual), ("<", .less), (">", .greater), ("≤", .lessEqual),
    ("≥", .greaterEqual), ("🡨", .assign), ("(", .leftParen), (")", .rightParen),
    ("[", .leftBracket), ("]", .rightBracket), ("⌈", .leftCeil), ("⌉", .rightCeil),
    ("⌊", .leftFloor), ("⌋", .rightFloor), (".", .dot), (",", .comma), (";", .semicolon),
    (":", .colon)]

/-- A word of the source with its place. -/
structure Token where
  kind : TokenKind
  text : String
  position : Position
deriving DecidableEq

namespace Token

/-- The line a token stands on. -/
def line (t : Token) : Nat :=
  t.position.line

/-- The length of a token in bytes. -/
def byteLength (t : Token) : Nat :=
  t.text.utf8ByteSize

/-- The token as named in an error. -/
def describe (t : Token) : String :=
  if t.kind = .endOfInput then "end of input" else "'" ++ t.text ++ "'"

end Token

end CostAnalysis
