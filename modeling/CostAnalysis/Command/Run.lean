import CostAnalysis.Command.Arguments
import CostAnalysis.Report.AnalysisJson
import CostAnalysis.Report.PlainText
import CostAnalysis.Settings.Load
import CostAnalysis.Settings.Toml.Writer
import CostAnalysis.Source.Decode

/-!
# Running commands

A command reads files, computes, and gives a text to print; one of them writes a
file.  Where the files are is left open: commands run in any monad that has a
way to read and to write them.
-/

namespace CostAnalysis

/-- Access to files.  What goes wrong is given in words. -/
structure FileAccess (m : Type → Type) where
  readBytes : String → m (Except String (List UInt8))
  writeText : String → String → m (Except String Unit)

/-- Why a command has no result: what failed, and the chain of its causes. -/
structure CommandError where
  message : String
  causes : List String := []

namespace CommandError

/-- A cause of several lines, where the first one is marked and the others are
indented. -/
def indented (mark indent : String) (text : String) : String :=
  mark ++ ("\n" ++ indent).intercalate
    ((Text.splitWhere (· == '\n') text.toList).map String.ofList)

/-- The lines that name the causes.  They are numbered if there is more than
one. -/
def causeLines (causes : List String) : List String :=
  match causes with
  | [cause] => [indented "    " "    " cause]
  | _ => causes.zipIdx.map fun (cause, k) =>
    indented (Text.padLeft 5 (toString k) ++ ": ") "       " cause

/-- The error in words. -/
def report (e : CommandError) : String :=
  let head := "Error: " ++ e.message
  if e.causes.isEmpty then head
  else "\n".intercalate ([head, "", "Caused by:"] ++ causeLines e.causes)

end CommandError

/-- What lies behind a failure. -/
def Failure.causes : Failure → List String
  | .source e => [e.text]
  | _ => []

/-- A text of lines that each end. -/
def textOfLines (lines : List String) : String :=
  String.join (lines.map (· ++ "\n"))

/-- A result in one of two formats. -/
@[inline]
def OutputFormat.render (format : OutputFormat) (json : Json) (lines : List String) : String :=
  match format with
  | .json => json.pretty 0 ++ "\n"
  | .text => textOfLines lines

section Tasks

variable {m : Type → Type} [Monad m]

/-- Reads a source file. -/
def FileAccess.readSource (files : FileAccess m) (file : String) :
    ExceptT CommandError m String := do
  match ← files.readBytes file with
  | .ok bytes => return decodeSource bytes
  | .error cause => throw { message := "Failed to read file: " ++ file, causes := [cause] }

/-- Reads the text of a file of settings. -/
def FileAccess.readSettingsText (files : FileAccess m) (file : String) :
    ExceptT CommandError m String := do
  let message := "Failed to read analyzer config from " ++ file
  match ← files.readBytes file with
  | .error cause => throw { message, causes := [cause] }
  | .ok bytes =>
    match Text.wellFormed? (Text.decodeUtf8 bytes) with
    | some text => return String.ofList text
    | none => throw { message, causes := ["stream did not contain valid UTF-8"] }

/-- Reads valid settings. -/
def FileAccess.readSettings (files : FileAccess m) (file : String) :
    ExceptT CommandError m Settings := do
  let text ← files.readSettingsText file
  let format := SettingsFormat.ofPath file
  match format.read? text with
  | none => throw { message := "Failed to parse " ++ format.name ++ " config from " ++ file }
  | some settings =>
    match settings.validate with
    | .ok _ => return settings
    | .error failure => throw { message := failure.message, causes := failure.causes }

/-- Carries out a task and gives the text to print. -/
def Task.run (files : FileAccess m) (settings : Settings) (format : OutputFormat) :
    Task → ExceptT CommandError m String
  | .parse file => do
    let source ← files.readSource file
    match Program.parse source with
    | .ok p => return format.render p.toJson p.report
    | .error e =>
      throw { message := "Syntax analysis of " ++ file ++ " failed", causes := [e.text] }
  | .costs file => do
    let source ← files.readSource file
    match Analysis.costs settings source with
    | .ok (_, charges) => return format.render charges.toJson charges.report
    | .error failure => throw { message := failure.message, causes := failure.causes }
  | .analyze file => do
    let source ← files.readSource file
    match Analysis.ofSource settings source with
    | .ok analysis => return format.render analysis.toJson (analysis.report file)
    | .error failure =>
      throw { message := "Analysis of " ++ file ++ " failed",
              causes := failure.message :: failure.causes }
  | .recurrence text =>
    let solution := RecurrenceSolution.ofText settings.recurrence text
    return format.render solution.toJson
      (solution.report ++ solution.confidence.report solution.notes)
  | .writeSettings file => do
    match Toml.write? {} with
    | none =>
      throw { message := "Failed to serialize analyzer config to TOML",
              causes := ["out-of-range value for u64 type"] }
    | some text =>
      match ← files.writeText file text with
      | .ok _ => return textOfLines ["✅ Configuration created: " ++ file]
      | .error cause =>
        throw { message := "Failed to write analyzer config to " ++ file, causes := [cause] }

end Tasks

/-- How a run ends. -/
inductive Outcome where
  | done (output : String)
  | failed (error : CommandError)
  | misused (fault : UsageFault)

namespace Outcome

/-- The status that a run reports. -/
def exitCode : Outcome → Nat
  | .done _ => 0
  | .failed _ => 1
  | .misused _ => 2

/-- What a run prints as its result. -/
def output : Outcome → String
  | .done output => output
  | _ => ""

end Outcome

namespace Command

/-- The name and the version of the program. -/
def versionText : String :=
  "complexity-analyzer 0.1.0\n"

/-- How the program is used. -/
def helpText : String :=
  textOfLines [
    "Asymptotic complexity of structured pseudocode: symbolic costs, series and recurrences",
    "",
    "Usage: complexity-analyzer [OPTIONS] <COMMAND>",
    "",
    "Commands:",
    "  parse <FILE>         Parse a pseudocode file and print its AST",
    "  costs <FILE>         Per-line and total symbolic costs",
    "  analyze <FILE>       Full analysis: iterative series or recurrence solving",
    "  recurrence <TEXT>    Classify and solve a recurrence such as \"T(n) = 2T(n/2) + n\"",
    "  config [-o <FILE>]   Write the default configuration",
    "",
    "Options:",
    "  -v, --verbose          Enable verbose logging",
    "  -f, --format <FORMAT>  Output format, text or json",
    "  -c, --config <CONFIG>  Analyzer configuration (TOML or YAML)",
    "  -h, --help             Print help",
    "  -V, --version          Print version"]

/-- Runs a command line.  Settings are read first, also where the task does not
need them. -/
def run {m : Type → Type} [Monad m] (files : FileAccess m) (args : List String) : m Outcome := do
  match Invocation.read args with
  | .error fault => return .misused fault
  | .ok .help => return .done helpText
  | .ok .version => return .done versionText
  | .ok (.run task format settingsFile? _) =>
    let result ← ExceptT.run do
      let settings ← match settingsFile? with
        | some file => files.readSettings file
        | none => pure {}
      task.run files settings format
    match result with
    | .ok output => return .done output
    | .error error => return .failed error

end Command

end CostAnalysis
