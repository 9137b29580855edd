/-!
# Positions and line spans
-/

namespace CostAnalysis

/-- A place in a source text: line and column count from one, columns in
characters; the offset counts bytes of the UTF-8 form from zero. -/
structure Position where
  line : Nat := 1
  column : Nat := 1
  offset : Nat := 0
deriving DecidableEq

/-- `line:column`. -/
def Position.text (p : Position) : String :=
  toString p.line ++ ":" ++ toString p.column

/-- The inclusive range of lines that a statement covers, where it is known. -/
inductive LineSpan where
  | unknown
  | lines (first last : Nat)
deriving DecidableEq

namespace LineSpan

/-- The span between two lines; it ends no earlier than it starts. -/
def of (first last : Nat) : LineSpan :=
  .lines first (Nat.max first last)

/-- The first line. -/
def first? : LineSpan → Option Nat
  | .unknown => none
  | .lines first _ => some first

/-- The last line. -/
def last? : LineSpan → Option Nat
  | .unknown => none
  | .lines _ last => some last

/-- Whether a line lies after the first one and not after the last one. -/
def enclosesBodyLine (span : LineSpan) (line : Nat) : Bool :=
  match span with
  | .unknown => false
  | .lines first last => first < line && line ≤ last

/-- The span in words. -/
def text : LineSpan → String
  | .unknown => "<unknown>"
  | .lines first last =>
    if first = last then "line " ++ toString first
    else "lines " ++ toString first ++ "-" ++ toString last

end LineSpan

end CostAnalysis
