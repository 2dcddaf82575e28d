/-
  The command line: `eval CODE`, `run FILE` and `check FILE`, with their options. Reading the
  arguments and running a command are pure; the files that a command names are handed to it.
-/
import LiveLisp.Directory
import LiveLisp.Json.Reader
import LiveLisp.Report
import LiveLisp.Session.Travel
import LiveLisp.Toml

namespace LiveLisp.CommandLine

/-- Options that change the settings of a run. -/
structure Tuning where
  config : Option String := none
  keyframeInterval : Option Nat := none
  gcInterval : Option Nat := none
  noCheckpoints : Bool := false
deriving Repr

inductive Command where
  | eval (code : String) (maxSteps : Nat)
  | run (file : String) (maxSteps : Nat) (tuning : Tuning)
  | check (file : String)
deriving Repr

/-- The options of the commands. The verbosity flag belongs to all of them. -/
inductive Flag where
  | maxSteps
  | config
  | keyframeInterval
  | gcInterval
  | noCheckpoints
deriving DecidableEq, Repr

namespace Flag

def ofName? : String → Option Flag
  | "max-steps" => some maxSteps
  | "config" => some config
  | "keyframe-interval" => some keyframeInterval
  | "gc-interval" => some gcInterval
  | "no-checkpoints" => some noCheckpoints
  | _ => none

def takesValue : Flag → Bool
  | noCheckpoints => false
  | _ => true

end Flag

/-- A command word and the flags that may follow it. -/
structure Form where
  word : String
  flags : List Flag

def forms : List Form :=
  [⟨"eval", [.maxSteps]⟩,
   ⟨"run", [.maxSteps, .config, .keyframeInterval, .gcInterval, .noCheckpoints]⟩,
   ⟨"check", []⟩]

/-- What has been read after the command word. -/
structure Arguments where
  operands : List String := []
  values : List (Flag × String) := []

/-- `-v`, repeated at will. -/
def isVerbosity (arg : String) : Bool :=
  arg == "--verbose" || (arg.startsWith "-v" && (arg.toList.drop 1).all (· == 'v'))

def Arguments.add? (a : Arguments) (flag : Flag) (value : String) : Option Arguments :=
  if a.values.any (·.1 == flag) then none else some { a with values := a.values ++ [(flag, value)] }

/-- Reads the arguments after a command word. A flag's value stands in the next argument or after
`=`; after `--` all is operand. -/
def readArguments (flags : List Flag) (a : Arguments) : List String → Option Arguments
  | [] => some a
  | arg :: rest =>
    if arg == "--" then some { a with operands := a.operands ++ rest }
    else if isVerbosity arg then readArguments flags a rest
    else if arg.startsWith "--" then
      let word := arg.toList.drop 2
      let name := String.ofList (word.takeWhile (· != '='))
      let attached := match word.dropWhile (· != '=') with
        | _ :: value => some (String.ofList value)
        | [] => none
      match Flag.ofName? name with
      | none => none
      | some flag =>
        if !flags.contains flag then none
        else if !flag.takesValue then
          match attached, a.add? flag "" with
          | none, some a => readArguments flags a rest
          | _, _ => none
        else
          match attached with
          | some value =>
            match a.add? flag value with
            | some a => readArguments flags a rest
            | none => none
          | none =>
            match rest with
            | value :: rest =>
              if value.startsWith "-" && value != "-" then none
              else
                match a.add? flag value with
                | some a => readArguments flags a rest
                | none => none
            | [] => none
    else if arg.startsWith "-" && arg != "-" then none
    else readArguments flags { a with operands := a.operands ++ [arg] } rest

/-- A 64-bit count, with an optional `+`. -/
def count? (text : String) : Option Nat :=
  let digits := match text.toList with
    | '+' :: rest => rest
    | cs => cs
  if digits.isEmpty || !digits.all Decimal.isDigit then none
  else
    let n := Decimal.natOfDigits digits
    if n < UInt64.size then some n else none

def path? (text : String) : Option String :=
  if text.isEmpty then none else some text

/-- The value of a flag: none if it is not given, and a failure if it does not read. -/
def Arguments.value? {α : Type} (a : Arguments) (flag : Flag) (read : String → Option α) :
    Option (Option α) :=
  match a.values.find? (·.1 == flag) with
  | none => some none
  | some (_, text) => (read text).map some

def defaultMaxSteps : Nat := 1000000

def Arguments.tuning? (a : Arguments) : Option Tuning := do
  return {
    config := ← a.value? .config path?
    keyframeInterval := ← a.value? .keyframeInterval count?
    gcInterval := ← a.value? .gcInterval count?
    noCheckpoints := a.values.any (·.1 == .noCheckpoints) }

/-- The command that the arguments ask for. -/
def parse? (args : List String) : Option Command := do
  match args.dropWhile isVerbosity with
  | [] => none
  | word :: rest =>
    let form ← forms.find? (·.word == word)
    let a ← readArguments form.flags {} rest
    match a.operands with
    | [operand] =>
      let maxSteps := (← a.value? .maxSteps count?).getD defaultMaxSteps
      let tuning ← a.tuning?
      match word with
      | "eval" => return .eval operand maxSteps
      | "run" => return .run (← path? operand) maxSteps tuning
      | _ => return .check (← path? operand)
    | _ => none

/-- The files that a command reads, in order. -/
def Command.paths : Command → List String
  | .eval .. => []
  | .run file _ tuning => tuning.config.toList ++ [file]
  | .check file => [file]

/-- What a command leaves: its exit code and what it wrote. -/
structure Outcome where
  code : Nat
  stdout : String
  stderr : String
deriving Repr

/-- Contents of files, or why they could not be read. -/
abbrev Files := String → Except ReadProblem String

def readFile (files : Files) (path : String) : Except String String :=
  match files path with
  | .ok content => .ok content
  | .error problem => .error ("reading " ++ path ++ ": " ++ problem.message)

/-- What stands after the last point of a file's name, if anything stands before it. -/
def extension? (path : String) : Option String :=
  let name := (path.toList.reverse.takeWhile (· != '/')).reverse
  match name.reverse.dropWhile (· != '.') with
  | _ :: _ :: _ => some (String.ofList (name.reverse.takeWhile (· != '.')).reverse)
  | _ => none

def loadSettings (files : Files) : Option String → Except String Settings
  | none => .ok {}
  | some path => do
    let text ← readFile files path
    let json := if extension? path == some "json" then Json.parse? text else Toml.parse? text
    match json.bind Settings.ofJson? with
    | some settings => return settings
    | none => throw ("invalid settings in " ++ path ++ ": not readable as settings")

def Tuning.settings (tuning : Tuning) (files : Files) : Except String Settings := do
  let settings ← loadSettings files tuning.config
  let settings := match tuning.keyframeInterval with
    | some n => { settings with keyframeInterval := n }
    | none => settings
  let settings := match tuning.gcInterval with
    | some n => { settings with gcInterval := n }
    | none => settings
  return if tuning.noCheckpoints then { settings with recordCheckpoints := false } else settings

/-- A session with a clock and a console. -/
def session (settings : Settings) : Session World :=
  let config := ((Config.ofSettings settings World.renderSignal).withCapability
    .clock).withCapability .console
  .start config {}

/-- Spends the rest of the budget, going on after every redraw request. At most `rounds` budgets are
spent, and each of them but the last takes a step. -/
def drive {σ : Type} (file source : String) (maxSteps : Nat) :
    Nat → Nat → Session σ → Except String Unit × Session σ
  | 0, _, s => (.error s!"program did not finish within {maxSteps} steps", s)
  | rounds + 1, total, s =>
    if s.isFinished then (.ok (), s)
    else
      match Session.runBudget (maxSteps - total) s with
      | .error e s => (.error (Report.render e file source), s)
      | .ok report s =>
        match report.stop with
        | .finished => drive file source maxSteps rounds (total + report.steps) s
        | .renderRequested => drive file source maxSteps rounds (total + report.steps) s
        | .exhausted => (.error s!"program did not finish within {maxSteps} steps", s)
        | .faulted =>
          match s.fault with
          | some e => (.error (Report.render e file source), s)
          | none => (.error "program faulted without an error", s)

/-- The end of a failed command: the message without trailing blanks. -/
def failed (stdout message : String) : Outcome :=
  ⟨1, stdout, Text.trimEnd message ++ "\n"⟩

/-- Runs a program and prints its value. -/
def runSource (file source : String) (settings : Settings) (maxSteps : Nat) : Outcome :=
  match Session.load source (session settings) with
  | .error e _ => failed "" (Report.render e file source)
  | .ok _ s =>
    match drive file source maxSteps (maxSteps + 2) 0 s with
    | (.error message, s) => failed s.world.console message
    | (.ok _, s) =>
      let result := match s.result? with
        | some v => v.render ++ "\n"
        | none => ""
      ⟨0, s.world.console ++ result, ""⟩

/-- Reads and compiles a program without running it. -/
def checkSource (file source : String) : Outcome :=
  let checked : Except Error (List Definition × Code) := do
    let root ← Node.ofProgram source
    let definitions ← Definition.find root
    let code ← Code.ofProgram 0 root
    return (definitions, code)
  match checked with
  | .error e => failed "" (Report.render e file source)
  | .ok (definitions, code) =>
    ⟨0, s!"OK: {code.length} instructions, {definitions.length} named functions\n", ""⟩

def Command.execute (files : Files) : Command → Outcome
  | .eval code maxSteps => runSource "<eval>" code {} maxSteps
  | .run file maxSteps tuning =>
    let prepared : Except String (Settings × String) := do
      let settings ← tuning.settings files
      return (settings, ← readFile files file)
    match prepared with
    | .error message => failed "" message
    | .ok (settings, source) => runSource file source settings maxSteps
  | .check file =>
    match readFile files file with
    | .error message => failed "" message
    | .ok source => checkSource file source

/-- Runs a whole command line. Arguments that make no command end with code 2. -/
def run (args : List String) (files : Files) : Outcome :=
  match parse? args with
  | some command => command.execute files
  | none => ⟨2, "", ""⟩

end LiveLisp.CommandLine
