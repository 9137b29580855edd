import CostAnalysis.Numeric.Literal
import CostAnalysis.Settings.Basic
import CostAnalysis.Text.Blank

/-!
# Settings as documents

Settings are written down in several formats.  All of them are read into one
kind of value, a `Document`, and the settings are taken from there: fields that
are absent have their defaults, and fields with unknown names are ignored.
-/

namespace CostAnalysis

/-- A structured value. -/
inductive Document where
  | null
  | bool (value : Bool)
  | int (value : Int)
  | double (value : Float)
  | str (value : String)
  /-- A scalar written without quotes, which is read as what is asked for. -/
  | plain (text : String)
  /-- A list.  An exact one does not stand for a section that has fewer
  fields. -/
  | list (items : List Document) (exact : Bool)
  | table (fields : List (String × Document))
  /-- A value that is marked with the name of a variant. -/
  | tagged (tag : String) (value : Document)

namespace Document

instance : Inhabited Document := ⟨.null⟩

/-- The boolean that a plain scalar is. -/
def plainBool? (text : String) : Option Bool :=
  if ["true", "True", "TRUE"].contains text then some true
  else if ["false", "False", "FALSE"].contains text then some false
  else none

/-- The number that a plain scalar is: a finite one, an infinity or no number at
all. -/
def plainDouble? (text : String) : Option Float :=
  let infinite := [".inf", ".Inf", ".INF"]
  if infinite.contains text || (infinite.map ("+" ++ ·)).contains text then some (1.0 / 0.0)
  else if (infinite.map ("-" ++ ·)).contains text then some (-1.0 / 0.0)
  else if [".nan", ".NaN", ".NAN"].contains text then some (0.0 / 0.0)
  else (Numeric.readDouble? text.toList).filter Numeric.Double.isFinite

/-- Whether a plain scalar has zeros before its other digits. -/
def hasLeadingZero (digits : List Char) : Bool :=
  match digits with
  | '0' :: _ :: _ => digits.all Numeric.DecimalParts.isDigit
  | _ => false

/-- The natural number that a plain scalar is, in base ten or with the mark of
another base. -/
def plainNat? (text : String) : Option Nat :=
  let digits := match text.toList with
    | '+' :: rest => rest
    | cs => cs
  match digits with
  | '0' :: 'x' :: rest => Numeric.readBase? 16 rest
  | '0' :: 'o' :: rest => Numeric.readBase? 8 rest
  | '0' :: 'b' :: rest => Numeric.readBase? 2 rest
  | _ => if hasLeadingZero digits then none else Numeric.readBase? 10 digits

/-- The value of a boolean. -/
def asBool? : Document → Option Bool
  | .bool b => some b
  | .plain text => plainBool? text
  | .tagged _ d => d.asBool?
  | _ => none

/-- The value of a number; whole numbers are numbers, too. -/
def asDouble? : Document → Option Float
  | .double x => some x
  | .int z => some (Numeric.Double.ofInt z)
  | .plain text => plainDouble? text
  | .tagged _ d => d.asDouble?
  | _ => none

/-- The value of a whole number that fits into a machine word. -/
def asWord? : Document → Option Nat
  | .int z => if Numeric.fitsUnsigned 64 z then some z.toNat else none
  | .plain text => (plainNat? text).filter fun n => n < Numeric.twoTo 64
  | .tagged _ d => d.asWord?
  | _ => none

/-- The value of a text. -/
def asString? : Document → Option String
  | .str s => some s
  | .plain text => some text
  | .tagged _ d => d.asString?
  | _ => none

/-- Whether a value says that there is nothing. -/
def isNothing : Document → Bool
  | .null => true
  | .plain text => ["", "~", "null", "Null", "NULL"].contains text
  | _ => false

/-- The name of a variant that has no contents.  It is a text, or the mark of
nothing, or the one field of a table that is nothing. -/
def asVariant? : Document → Option String
  | .str s => some s
  | .plain text => some text
  | .tagged tag d => if d.isNothing then some tag else none
  | .table [(name, .null)] => some name
  | _ => none

/-- The fields of a section.  A section may also be written as the list of its
values, in the order of the field names, or be left empty. -/
def fields? (names : List String) : Document → Option (List (String × Document))
  | .table fields => some fields
  | .list items exact =>
    if exact && names.length < items.length then none else some (names.zip items)
  | .plain text => if text.isEmpty then some [] else none
  | .tagged _ d => d.fields? names
  | _ => none

/-- The value of a field, or a default if there is none; fails on a value of the
wrong kind and on a field that is given twice. -/
def field? (fields : List (String × Document)) (name : String) (convert : Document → Option α)
    (default : α) : Option α :=
  match fields.filter fun f => f.1 == name with
  | [] => some default
  | [(_, d)] => convert d
  | _ => none

end Document

/-- The style of the given name. -/
def IncrementStyle.ofDocument? (d : Document) : Option IncrementStyle :=
  d.asVariant?.bind fun name =>
    [IncrementStyle.unit, IncrementStyle.double].find? fun style => style.tag == name

/-- The cost model's section. -/
def CostSettings.ofDocument? (d : Document) : Option CostSettings := do
  let fields ← d.fields? ["branch_probability", "count_loop_control", "increment_style",
    "while_average_bound", "while_worst_bound"]
  let s : CostSettings := {}
  return {
    branchProbability :=
      ← Document.field? fields "branch_probability" Document.asDouble? s.branchProbability
    countLoopControl :=
      ← Document.field? fields "count_loop_control" Document.asBool? s.countLoopControl
    incrementStyle :=
      ← Document.field? fields "increment_style" IncrementStyle.ofDocument? s.incrementStyle
    whileAverageBound :=
      ← Document.field? fields "while_average_bound" Document.asString? s.whileAverageBound
    whileWorstBound :=
      ← Document.field? fields "while_worst_bound" Document.asString? s.whileWorstBound }

/-- The section of the solver of sums. -/
def SeriesSettings.ofDocument? (d : Document) : Option SeriesSettings := do
  let fields ← d.fields? ["parallel_cases", "line_steps"]
  let s : SeriesSettings := {}
  return {
    parallelCases := ← Document.field? fields "parallel_cases" Document.asBool? s.parallelCases
    lineSteps := ← Document.field? fields "line_steps" Document.asBool? s.lineSteps }

/-- The section of the solver of recurrences. -/
def RecurrenceSettings.ofDocument? (d : Document) : Option RecurrenceSettings := do
  let fields ← d.fields? ["master_epsilon", "tree_levels", "render_tree_diagram",
    "parallel_methods"]
  let s : RecurrenceSettings := {}
  return {
    masterEpsilon := ← Document.field? fields "master_epsilon" Document.asDouble? s.masterEpsilon
    treeLevels := ← Document.field? fields "tree_levels" Document.asWord? s.treeLevels
    treeDiagram := ← Document.field? fields "render_tree_diagram" Document.asBool? s.treeDiagram
    parallelMethods :=
      ← Document.field? fields "parallel_methods" Document.asBool? s.parallelMethods }

/-- The settings that a document describes; none if a value is of the wrong
kind. -/
def Settings.ofDocument? (d : Document) : Option Settings := do
  let fields ← d.fields? ["cost_model", "solver", "recurrence"]
  return {
    cost := ← Document.field? fields "cost_model" CostSettings.ofDocument? {}
    series := ← Document.field? fields "solver" SeriesSettings.ofDocument? {}
    recurrence := ← Document.field? fields "recurrence" RecurrenceSettings.ofDocument? {} }

end CostAnalysis
