/-!
# Notes

An analysis does not stop at a fragment it cannot interpret.  It keeps the
fragment, records a note that says so, and marks the result as a best effort.  A
log of notes lists each one once, in the order in which they first arose.
-/

namespace CostAnalysis

/-- Why a result is less than exact. -/
inductive NoteKind where
  /-- A subexpression was replaced by an opaque symbol. -/
  | unrecognizedExpression
  /-- A summation had no closed form and was kept symbolically. -/
  | unresolvedSummation
  /-- A recurrence matched no canonical class. -/
  | unclassifiableRecurrence
  /-- A statement without a cost rule was charged one operation. -/
  | unhandledNode
deriving DecidableEq

/-- The kind in words. -/
def NoteKind.label : NoteKind → String
  | .unrecognizedExpression => "unrecognized expression"
  | .unresolvedSummation => "unresolved summation"
  | .unclassifiableRecurrence => "unclassifiable recurrence"
  | .unhandledNode => "unhandled node"

/-- The kind as an identifier in reports. -/
def NoteKind.tag : NoteKind → String
  | .unrecognizedExpression => "unrecognized_expression"
  | .unresolvedSummation => "unresolved_summation"
  | .unclassifiableRecurrence => "unclassifiable_recurrence"
  | .unhandledNode => "unhandled_node"

/-- A remark that lowers the confidence in a result. -/
structure Note where
  kind : NoteKind
  detail : String
deriving DecidableEq

/-- The note in words. -/
def Note.text (n : Note) : String :=
  n.kind.label ++ ": " ++ n.detail

/-- How far a result can be trusted. -/
inductive Confidence where
  | exact
  | bestEffort
deriving DecidableEq

/-- The confidence in words. -/
def Confidence.text : Confidence → String
  | .exact => "exact"
  | .bestEffort => "best-effort"

/-- The confidence as an identifier in reports. -/
def Confidence.tag : Confidence → String
  | .exact => "exact"
  | .bestEffort => "best_effort"

namespace Note

/-- Adds a note to a log unless it is there already. -/
def record (log : List Note) (note : Note) : List Note :=
  if log.contains note then log else log ++ [note]

/-- Adds notes to a log one by one. -/
def recordAll (log notes : List Note) : List Note :=
  notes.foldl record log

/-- The log of a sequence of notes: each once, in order of first occurrence. -/
def logOf (notes : List Note) : List Note :=
  recordAll [] notes

/-- A result without notes is exact. -/
def confidence (log : List Note) : Confidence :=
  if log.isEmpty then .exact else .bestEffort

end Note

end CostAnalysis
