import CostAnalysis.Settings.Basic
import CostAnalysis.Source.SyntaxError

/-!
# Failures

What ends an analysis without a result.  A fragment that cannot be interpreted
is no failure: it is noted, and the analysis goes on.
-/

namespace CostAnalysis

/-- Why an analysis has no result. -/
inductive Failure where
  /-- The source violates the grammar. -/
  | source (error : SyntaxError)
  /-- A text is no formula. -/
  | expression (text : String)
  /-- A text is no recurrence, for the given reason. -/
  | recurrence (reason : String)
  | unknownFunction (name : String)
  | settings (fault : SettingsFault)

/-- The failure in words. -/
def Failure.message : Failure → String
  | .source e => "Parse error: " ++ e.text
  | .expression text => unrecognizedText text
  | .recurrence reason => "Unclassifiable recurrence: " ++ reason
  | .unknownFunction name => "Function not found: " ++ name
  | .settings fault => "Invalid configuration: " ++ fault.message

/-- Accepts settings without a fault. -/
def Settings.validate (s : Settings) : Except Failure Unit :=
  match s.fault? with
  | some fault => .error (.settings fault)
  | none => .ok ()

end CostAnalysis
