import CostAnalysis.Text.Blank

/-!
# Arguments of the command line

An invocation names a command after the options that all commands share; the
same options may be given again behind the command, where they take precedence,
together with the operand of the command and the options of its own.

* An option is written `--format json`, `--format=json`, `-f json`, `-f=json` or
  `-fjson`; letters without values can be joined, as in `-vf json`.
* An option is given at most once before the command and at most once behind it.
* What starts with a hyphen is an option, except the hyphen by itself and
  whatever follows `--`.

Arguments are examined from left to right, and the first fault or request for
help ends the reading.
-/

namespace CostAnalysis

/-- How results are written. -/
inductive OutputFormat where
  | text
  | json
deriving DecidableEq

/-- The format of a name. -/
def OutputFormat.ofName? (name : String) : Option OutputFormat :=
  if name == "text" then some .text
  else if name == "json" then some .json
  else none

/-- The options. -/
inductive Switch where
  | help
  | version
  | verbose
  | format
  | config
  | output
deriving DecidableEq

namespace Switch

/-- The long name, without its hyphens. -/
def name : Switch → String
  | .help => "help"
  | .version => "version"
  | .verbose => "verbose"
  | .format => "format"
  | .config => "config"
  | .output => "output"

/-- The short name, without its hyphen. -/
def letter : Switch → Char
  | .help => 'h'
  | .version => 'V'
  | .verbose => 'v'
  | .format => 'f'
  | .config => 'c'
  | .output => 'o'

/-- Whether a value follows. -/
def takesValue : Switch → Bool
  | .help | .version | .verbose => false
  | .format | .config | .output => true

/-- The options before a command. -/
def leading : List Switch :=
  [.help, .version, .verbose, .format, .config]

/-- The options behind any command. -/
def trailing : List Switch :=
  [.help, .verbose, .format, .config]

end Switch

/-- Why arguments are refused. -/
inductive UsageFault where
  | unknownOption (text : String)
  | repeatedOption (switch : Switch)
  | missingValue (switch : Switch)
  | unwantedValue (switch : Switch)
  | unknownFormat (text : String)
  | emptyPath
  | missingCommand
  | unknownCommand (name : String)
  | missingOperand
  | extraOperand (text : String)

/-- The fault in words. -/
def UsageFault.message : UsageFault → String
  | .unknownOption text => "unexpected option " ++ text
  | .repeatedOption s => "the option --" ++ s.name ++ " is given twice"
  | .missingValue s => "the option --" ++ s.name ++ " needs a value"
  | .unwantedValue s => "the option --" ++ s.name ++ " takes no value"
  | .unknownFormat text => "unknown format " ++ text ++ ", expected text or json"
  | .emptyPath => "the name of a file is empty"
  | .missingCommand => "a command is missing"
  | .unknownCommand name => "unknown command " ++ name
  | .missingOperand => "the operand of the command is missing"
  | .extraOperand text => "unexpected operand " ++ text

/-- Why the reading of arguments ends before the last one. -/
inductive Stop where
  | help
  | version
  | fault (fault : UsageFault)

/-- Accepts the name of a file, which is not empty. -/
def readPath (text : String) : Except Stop String :=
  if text.isEmpty then .error (.fault .emptyPath) else .ok text

/-- The options given on one side of the command. -/
structure GivenOptions where
  verbose : Bool := false
  format? : Option OutputFormat := none
  config? : Option String := none
  output? : Option String := none

namespace GivenOptions

/-- Fills in an option that was not given before. -/
def fill (switch : Switch) (old : Option α) (new : Except Stop α) : Except Stop (Option α) :=
  if old.isSome then .error (.fault (.repeatedOption switch))
  else new.map some

/-- Adds an option with its value; where it takes none, the value is not looked
at. -/
def add (g : GivenOptions) (value : String) : Switch → Except Stop GivenOptions
  | .help => .error .help
  | .version => .error .version
  | .verbose =>
    if g.verbose then .error (.fault (.repeatedOption .verbose)) else .ok { g with verbose := true }
  | .format => do
    let new := match OutputFormat.ofName? value with
      | some format => .ok format
      | none => .error (.fault (.unknownFormat value))
    return { g with format? := ← fill .format g.format? new }
  | .config => return { g with config? := ← fill .config g.config? (readPath value) }
  | .output => return { g with output? := ← fill .output g.output? (readPath value) }

/-- The options on both sides of the command; those behind it take
precedence. -/
def orElse (behind before : GivenOptions) : GivenOptions :=
  { verbose := behind.verbose || before.verbose
    format? := behind.format? <|> before.format?
    config? := behind.config? <|> before.config?
    output? := behind.output? <|> before.output? }

end GivenOptions

/-- Whether an argument starts with a hyphen and goes on. -/
def isDashed (arg : String) : Bool :=
  match arg.toList with
  | '-' :: _ :: _ => true
  | _ => false

/-- Reads joined letters.  A letter whose value is still to come is returned. -/
def readLetters (known : List Switch) (g : GivenOptions) :
    List Char → Except Stop (GivenOptions × Option Switch)
  | [] => .ok (g, none)
  | c :: rest =>
    match known.find? fun s => s.letter == c with
    | none => .error (.fault (.unknownOption (String.ofList ['-', c])))
    | some s =>
      if s.takesValue then
        match rest with
        | [] => .ok (g, some s)
        | '=' :: value => do return (← g.add (String.ofList value) s, none)
        | value => do return (← g.add (String.ofList value) s, none)
      else do
        readLetters known (← g.add "" s) rest

/-- Reads an option with a long name.  If its value is still to come, it is
returned. -/
def readLong (known : List Switch) (g : GivenOptions) (text : List Char) :
    Except Stop (GivenOptions × Option Switch) :=
  let (name, value?) := match Text.splitFirst '=' text with
    | some (name, value) => (name, some value)
    | none => (text, none)
  match known.find? fun s => s.name.toList == name with
  | none => .error (.fault (.unknownOption ("--" ++ String.ofList name)))
  | some s =>
    match s.takesValue, value? with
    | true, some value => do return (← g.add (String.ofList value) s, none)
    | true, none => .ok (g, some s)
    | false, some _ => .error (.fault (.unwantedValue s))
    | false, none => do return (← g.add "" s, none)

/-- Reads one argument that starts with a hyphen. -/
def readOption (known : List Switch) (g : GivenOptions) (arg : String) :
    Except Stop (GivenOptions × Option Switch) :=
  match arg.toList with
  | '-' :: '-' :: long => readLong known g long
  | _ :: letters => readLetters known g letters
  | [] => .ok (g, none)

/-- Reads the options at the front of a list of arguments, up to a word or
`--`. -/
def readOptions (known : List Switch) (g : GivenOptions) :
    List String → Except Stop (GivenOptions × List String)
  | [] => .ok (g, [])
  | arg :: rest =>
    if !isDashed arg || arg == "--" then .ok (g, arg :: rest)
    else
      match readOption known g arg, rest with
      | .error stop, _ => .error stop
      | .ok (g, none), rest => readOptions known g rest
      | .ok (_, some s), [] => .error (.fault (.missingValue s))
      | .ok (g, some s), value :: rest =>
        if isDashed value then .error (.fault (.missingValue s))
        else
          match g.add value s with
          | .error stop => .error stop
          | .ok g => readOptions known g rest

/-- The commands. -/
inductive CommandName where
  | parse
  | costs
  | analyze
  | recurrence
  | config
deriving DecidableEq

namespace CommandName

/-- The command as it is written. -/
def text : CommandName → String
  | .parse => "parse"
  | .costs => "costs"
  | .analyze => "analyze"
  | .recurrence => "recurrence"
  | .config => "config"

/-- All commands. -/
def all : List CommandName :=
  [.parse, .costs, .analyze, .recurrence, .config]

/-- The command of a name. -/
def ofText? (text : String) : Option CommandName :=
  all.find? fun c => c.text == text

/-- The options behind a command. -/
def switches (c : CommandName) : List Switch :=
  if c = .config then Switch.trailing ++ [.output] else Switch.trailing

/-- Accepts an operand: a recurrence may be any text, and one command has no
operand. -/
def readOperand (c : CommandName) (text : String) : Except Stop String :=
  match c with
  | .parse | .costs | .analyze => readPath text
  | .recurrence => .ok text
  | .config => .error (.fault (.extraOperand text))

/-- Refuses words behind the operand. -/
def readEnd : List String → Except Stop Unit
  | [] | ["--"] => .ok ()
  | text :: _ => .error (.fault (.extraOperand text))

/-- Reads the arguments behind a command. -/
def readArguments (c : CommandName) (args : List String) :
    Except Stop (GivenOptions × Option String) := do
  let (g, rest) ← readOptions c.switches {} args
  match rest with
  | [] | ["--"] => return (g, none)
  | "--" :: text :: more =>
    let operand ← c.readOperand text
    match more with
    | [] => return (g, some operand)
    | extra :: _ => .error (.fault (.extraOperand extra))
  | text :: more =>
    let operand ← c.readOperand text
    let (g, rest) ← readOptions c.switches g more
    readEnd rest
    return (g, some operand)

end CommandName

/-- What is to be done. -/
inductive Task where
  | parse (file : String)
  | costs (file : String)
  | analyze (file : String)
  | recurrence (text : String)
  /-- Write the default settings to a file. -/
  | writeSettings (file : String)

/-- What a command line asks for. -/
inductive Invocation where
  | help
  | version
  /-- Carry out a task with the settings of a file or the default ones.  No
  result depends on whether the run is verbose. -/
  | run (task : Task) (format : OutputFormat) (settingsFile? : Option String) (verbose : Bool)

namespace Invocation

/-- The file that settings are written to unless another is named. -/
def defaultOutput : String :=
  "complexity-analyzer.toml"

/-- The task of a command, which needs an operand in all cases but one. -/
def taskOf (c : CommandName) (operand? output? : Option String) : Except Stop Task :=
  match c, operand? with
  | .config, _ => .ok (.writeSettings (output?.getD defaultOutput))
  | _, none => .error (.fault .missingOperand)
  | .parse, some file => .ok (.parse file)
  | .costs, some file => .ok (.costs file)
  | .analyze, some file => .ok (.analyze file)
  | .recurrence, some text => .ok (.recurrence text)

/-- Reads a request for help on a command. -/
def readHelp : List String → Except Stop Invocation
  | [] => .error .help
  | name :: rest =>
    if name != "help" && (CommandName.ofText? name).isNone then
      .error (.fault (.unknownCommand name))
    else
      match rest with
      | [] => .error .help
      | extra :: _ => .error (.fault (.unknownCommand extra))

/-- Reads a command line up to the point where it ends or stops. -/
def readUntilStop (args : List String) : Except Stop Invocation := do
  let (before, rest) ← readOptions Switch.leading {} args
  match rest with
  | [] => .error (.fault .missingCommand)
  | word :: rest =>
    if word == "help" then readHelp rest
    else
      match CommandName.ofText? word with
      | none => .error (.fault (.unknownCommand word))
      | some c =>
        let (behind, operand?) ← c.readArguments rest
        let given := behind.orElse before
        let task ← taskOf c operand? given.output?
        return .run task (given.format?.getD .text) given.config? given.verbose

/-- Reads a command line. -/
def read (args : List String) : Except UsageFault Invocation :=
  match readUntilStop args with
  | .ok invocation => .ok invocation
  | .error .help => .ok .help
  | .error .version => .ok .version
  | .error (.fault fault) => .error fault

end Invocation

end CostAnalysis
