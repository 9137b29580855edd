import CostAnalysis.Numeric.Decimal
import CostAnalysis.Settings.Document
import CostAnalysis.Settings.Toml.Basic

/-!
# Writing TOML

Settings are written as three tables with all their fields.  A string is written
in the plainest of four ways that needs no escapes, if there is one.
-/

namespace CostAnalysis.Toml

/-- The ways to write a string. -/
inductive QuoteStyle where
  /-- Between quotation marks, with escapes. -/
  | basic
  /-- Between apostrophes, as it is. -/
  | literal
  /-- Between three quotation marks, with escapes. -/
  | longBasic
  /-- Between three apostrophes, as it is. -/
  | longLiteral
deriving DecidableEq

/-- The length of the longest run of a character, where the text follows a run
of length `run`. -/
def longestRunFrom (c : Char) (run : Nat) : List Char → Nat
  | [] => run
  | d :: rest =>
    if d == c then longestRunFrom c (run + 1) rest else Max.max run (longestRunFrom c 0 rest)

/-- The length of the longest run of a character. -/
def longestRun (c : Char) (text : List Char) : Nat :=
  longestRunFrom c 0 text

/-- The way in which a text is written. -/
def QuoteStyle.of (text : List Char) : QuoteStyle :=
  let quotes := longestRun '"' text
  let apostrophes := longestRun apostrophe text
  let backslash := text.contains '\\'
  let multiline := text.contains '\n'
  let escaped := if multiline then QuoteStyle.longBasic else .basic
  if text.any fun c => isControl c && c != '\n' then escaped
  else if !backslash && quotes == 0 && !multiline then .basic
  else if apostrophes == 0 && !multiline then .literal
  else if !backslash && quotes ≤ 2 then .longBasic
  else if apostrophes ≤ 2 then .longLiteral
  else escaped

/-- A hexadecimal digit. -/
def hexDigit (n : Nat) : Char :=
  ((Nat.toDigits 16 n).headD '0').toUpper

/-- A character between quotation marks; line breaks stay in strings over
several lines. -/
def escape (multiline : Bool) (c : Char) : List Char :=
  if c == '\n' && multiline then [c]
  else if c == '\n' then ['\\', 'n']
  else if c == '\t' then ['\\', 't']
  else if c == '\r' then ['\\', 'r']
  else if c == '"' then ['\\', '"']
  else if c == '\\' then ['\\', '\\']
  else if c.toNat == 8 then ['\\', 'b']
  else if c.toNat == 12 then ['\\', 'f']
  else if isControl c then ['\\', 'u', '0', '0', hexDigit (c.toNat / 16), hexDigit (c.toNat % 16)]
  else [c]

/-- The characters between quotation marks.  In a string over several lines up
to two quotation marks in a row stay as they are; `run` counts those before the
text. -/
def escapeFrom (multiline : Bool) (run : Nat) : List Char → List Char
  | [] => []
  | c :: rest =>
    if c == '"' && multiline && run < 2 then c :: escapeFrom multiline (run + 1) rest
    else escape multiline c ++ escapeFrom multiline 0 rest

/-- A string value.  Three opening marks stand on a line of their own if the
string has line breaks. -/
def quote (text : String) : String :=
  let cs := text.toList
  let lineBreak := if cs.contains '\n' then "\n" else ""
  let escaped (multiline : Bool) : String := String.ofList (escapeFrom multiline 0 cs)
  match QuoteStyle.of cs with
  | .basic => "\"" ++ escaped false ++ "\""
  | .literal => "'" ++ text ++ "'"
  | .longBasic => "\"\"\"" ++ lineBreak ++ escaped true ++ "\"\"\""
  | .longLiteral => "'''" ++ lineBreak ++ text ++ "'''"

/-- A boolean value. -/
def boolText (b : Bool) : String :=
  if b then "true" else "false"

/-- A table with its fields. -/
def tableText (name : String) (fields : List (String × String)) : String :=
  "[" ++ name ++ "]\n" ++ String.join (fields.map fun (key, value) => key ++ " = " ++ value ++ "\n")

/-- The text of settings.  The format has no whole numbers beyond 64 bits with a
sign. -/
def write? (s : Settings) : Option String :=
  if Numeric.fitsSigned 64 (Int.ofNat s.recurrence.treeLevels) then
    some ("\n".intercalate [
      tableText "cost_model" [
        ("branch_probability", Numeric.Decimal.withFraction s.cost.branchProbability),
        ("count_loop_control", boolText s.cost.countLoopControl),
        ("increment_style", quote s.cost.incrementStyle.tag),
        ("while_average_bound", quote s.cost.whileAverageBound),
        ("while_worst_bound", quote s.cost.whileWorstBound)],
      tableText "solver" [
        ("parallel_cases", boolText s.series.parallelCases),
        ("line_steps", boolText s.series.lineSteps)],
      tableText "recurrence" [
        ("master_epsilon", Numeric.Decimal.withFraction s.recurrence.masterEpsilon),
        ("tree_levels", toString s.recurrence.treeLevels),
        ("render_tree_diagram", boolText s.recurrence.treeDiagram),
        ("parallel_methods", boolText s.recurrence.parallelMethods)]])
  else none

end CostAnalysis.Toml
