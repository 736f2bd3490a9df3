/-
Arguments of the command line.

Options come before or after the one file, and `--` ends them.  Options that make a list may be
repeated; of the others, those that take a value may not.
-/
import DataflowSynth.Destination
import DataflowSynth.Job

namespace DataflowSynth.CommandLine

/-- The form of the result. -/
inductive Emit where
  /-- The scheduler and the design as text. -/
  | text
  /-- The actor, the scheduler and the tasks as JSON. -/
  | json
  deriving DecidableEq

/-- What the arguments ask for. -/
structure Options where
  file : Option String
  output : Destination
  passes : List String
  disabled : List String
  settings : List String
  moves : List String
  clockDomain : String
  emit : Emit
  /-- Print the design after every pass. -/
  dump : Bool
  listPasses : Bool
  /-- The rank of the least important records that are shown. -/
  logRank : Nat

/-- What the arguments have said so far. -/
structure Given where
  file : Option String := none
  output : Option Destination := none
  passes : List String := []
  disabled : List String := []
  settings : List String := []
  moves : List String := []
  clockDomain : Option String := none
  emit : Option Emit := none
  dump : Bool := false
  listPasses : Bool := false
  logRank : Option Nat := none

/-- What is used where nothing is said: the result goes to the standard output, all passes run, and
warnings are shown. -/
def Given.options (g : Given) : Options where
  file := g.file
  output := g.output.getD .stdout
  passes := if g.passes.isEmpty then ["all"] else g.passes
  disabled := g.disabled
  settings := g.settings
  moves := g.moves
  clockDomain := g.clockDomain.getD Job.defaultClockDomain
  emit := g.emit.getD .text
  dump := g.dump
  listPasses := g.listPasses
  logRank := g.logRank.getD 2

/-! ### Values of options -/

def parseOutput (s : String) : Except String Destination :=
  match Destination.ofText? s with
  | some d => .ok d
  | none => .error "empty output path"

def parseEmit : String → Except String Emit
  | "text" => .ok .text
  | "json" => .ok .json
  | s => .error ("Unknown emit format: " ++ s ++ ". Valid options: text, json")

/-- The names of log levels, from the one that shows nothing on. -/
def levelNames : List String := ["off", "error", "warn", "info", "debug", "trace"]

/-- The rank of a log level; upper and lower case do not matter. -/
def parseLevel (s : String) : Except String Nat :=
  match levelNames.idxOf? (String.ofList (s.toList.map Char.toLower)) with
  | some rank => .ok rank
  | none => .error "attempted to convert a string that doesn't match an existing log level"

/-- A value for an option that may be given once. -/
def once {α : Type} (before : Option α) (value : Except String α) : Except String (Option α) :=
  match before with
  | some _ => .error "duplicate values provided"
  | none => value.map some

/-! ### Options -/

inductive Switch where
  | dump
  | listPasses

def Switch.apply (g : Given) : Switch → Given
  | .dump => { g with dump := true }
  | .listPasses => { g with listPasses := true }

/-- Options that take a value. -/
inductive Valued where
  | output
  | pass
  | disable
  | setting
  | move
  | clockDomain
  | emit
  | logLevel

def Valued.apply (g : Given) (value : String) : Valued → Except String Given
  | .output => do return { g with output := ← once g.output (parseOutput value) }
  | .pass => .ok { g with passes := g.passes ++ [value] }
  | .disable => .ok { g with disabled := g.disabled ++ [value] }
  | .setting => .ok { g with settings := g.settings ++ [value] }
  | .move => .ok { g with moves := g.moves ++ [value] }
  | .clockDomain => do return { g with clockDomain := ← once g.clockDomain (.ok value) }
  | .emit => do return { g with emit := ← once g.emit (parseEmit value) }
  | .logLevel => do return { g with logRank := ← once g.logRank (parseLevel value) }

/-- An option with or without a value. -/
inductive Kind where
  | switch (s : Switch)
  | valued (v : Valued)

/-- The option with a name. -/
def option? : String → Option Kind
  | "-o" | "--output" => some (.valued .output)
  | "-p" | "--pass" => some (.valued .pass)
  | "-d" | "--disable-pass" => some (.valued .disable)
  | "-x" | "--extra-opt" => some (.valued .setting)
  | "-i" | "--insert" => some (.valued .move)
  | "--clock-domain" => some (.valued .clockDomain)
  | "--emit" => some (.valued .emit)
  | "--log-level" => some (.valued .logLevel)
  | "--dump-ir" => some (.switch .dump)
  | "--list-passes" => some (.switch .listPasses)
  | _ => none

/-! ### Reading the arguments -/

/-- What is wrong with the arguments. -/
inductive UsageError where
  | unrecognized (argument : String)
  | noValue (option : String)
  | badValue (option value reason : String)
  | afterHelp

def UsageError.message : UsageError → String
  | .unrecognized argument => "Unrecognized argument: " ++ argument ++ "\n"
  | .noValue option => "No value provided for option '" ++ option ++ "'.\n"
  | .badValue option value reason =>
    "Error parsing option '" ++ option ++ "' with value '" ++ value ++ "': " ++ reason ++ "\n"
  | .afterHelp => "Trailing arguments are not allowed after `help`."

/-- What the arguments ask for. -/
inductive Invocation where
  | help
  | job (o : Options)

/-- Where the reading of the arguments stands. -/
structure Mode where
  /-- Help was asked for. -/
  help : Bool := false
  /-- No options follow. -/
  ended : Bool := false

def isHelp (argument : String) : Bool := argument = "-h" || argument = "--help"

def scan (mode : Mode) (g : Given) : List String → Except UsageError Invocation
  | [] => .ok (if mode.help then .help else .job g.options)
  | argument :: rest =>
    if mode.ended || !argument.startsWith "-" then
      match g.file with
      | some _ => .error (.unrecognized argument)
      | none => scan mode { g with file := some argument } rest
    else if isHelp argument then scan { mode with help := true } g rest
    else if argument = "--" then scan { mode with ended := true } g rest
    else if mode.help then .error .afterHelp
    else match option? argument with
      | none => .error (.unrecognized argument)
      | some (.switch s) => scan mode (s.apply g) rest
      | some (.valued v) =>
        match rest with
        | [] => .error (.noValue argument)
        | value :: rest =>
          match v.apply g value with
          | .ok g => scan mode g rest
          | .error reason => .error (.badValue argument value reason)

/-- What a list of arguments asks for. -/
def parse (arguments : List String) : Except UsageError Invocation := scan {} {} arguments

end DataflowSynth.CommandLine
