import Clausal.Clause
import Clausal.Settings
import Clausal.Text.Blank
/-! Command lines. The words are taken one by one, and the first that asks for help or makes no sense
decides. -/
namespace Clausal.Command

/-- What a command line asks for. -/
inductive Request where
  /-- Enumerate the solutions of a formula. -/
  | solve (formula config : String) (overrides : Overrides) (interesting : List Int)
      (verbose : Bool)
  /-- Check that a formula is dense and has a solution. -/
  | verify (formula config : String) (allowPartial : Bool)
  /-- Write default settings. -/
  | setup (directory : String) (force : Bool)
  | help
  | version
deriving DecidableEq, Repr, Inhabited

/-- A command line that makes no sense. -/
inductive UsageFault where
  | noCommand
  | unknownCommand (word : String)
  | unexpected (word : String)
  | missingValue (option : String)
  | badValue (option value : String)
  | repeated (option : String)
  | missingOption (option : String)
deriving DecidableEq, Repr, Inhabited

/-- How an option is written, and what it takes. -/
structure OptionSpec where
  long : String
  short : Option Char := none
  takesValue : Bool := true
  isRepeatable : Bool := false
  isRequired : Bool := false
  /-- Whether a value makes sense. -/
  accepts : String → Bool := fun _ => true

/-- The options given so far, latest first, each with its value. -/
abbrev Given := List (String × String)

/-- What the words of a command come to: its options, or a wish for help. -/
inductive Reading where
  | options (given : Given)
  | help
deriving DecidableEq, Repr

/-- Takes in an option with its value. -/
def give (spec : OptionSpec) (value : String) (given : Given) : Except UsageFault Given :=
  if !spec.accepts value then .error (.badValue spec.long value)
  else if !spec.isRepeatable && given.any (·.1 = spec.long) then .error (.repeated spec.long)
  else .ok ((spec.long, value) :: given)

/-- Whether a word is an option or the end of options rather than a value. -/
def isOptionWord (word : String) : Bool :=
  word.startsWith "-" && word ≠ "-"

/-- The parts of a long option: its name, and its value if it is written with one. -/
def splitLong (word : String) : String × Option String :=
  let (name, rest) := (word.toList.drop 2).span (· ≠ '=')
  match rest with
  | [] => (String.ofList name, none)
  | _ :: value => (String.ofList name, some (String.ofList value))

/-- One reading of a word that starts with a dash. -/
inductive WordReading where
  | done (given : Given)
  /-- The next word is the value of the option. -/
  | wantsValue (spec : OptionSpec) (given : Given)
  | help

/-- Reads a word that starts with two dashes. -/
def readLong (specs : List OptionSpec) (word : String) (given : Given) :
    Except UsageFault WordReading :=
  match splitLong word with
  | ("help", none) => .ok .help
  | (name, value) =>
    match specs.find? (·.long = name) with
    | none => .error (.unexpected word)
    | some spec =>
      match value with
      | some value =>
        if spec.takesValue then (give spec value given).map .done else .error (.unexpected word)
      | none =>
        if spec.takesValue then .ok (.wantsValue spec given) else (give spec "" given).map .done

/-- Reads the letters after one dash. -/
def readShort (specs : List OptionSpec) (word : String) : List Char → Given →
    Except UsageFault WordReading
  | [], given => .ok (.done given)
  | 'h' :: _, _ => .ok .help
  | letter :: rest, given =>
    match specs.find? (·.short = some letter) with
    | none => .error (.unexpected word)
    | some spec =>
      if spec.takesValue then
        match rest with
        | [] => .ok (.wantsValue spec given)
        | '=' :: value => (give spec (String.ofList value) given).map .done
        | value => (give spec (String.ofList value) given).map .done
      else do readShort specs word rest (← give spec "" given)

/-- Reads the words of a command. -/
def readWords (specs : List OptionSpec) (given : Given) : List String → Except UsageFault Reading
  | [] => .ok (.options given)
  | word :: rest =>
    if word = "--" then
      match rest with
      | [] => .ok (.options given)
      | word :: _ => .error (.unexpected word)
    else if !isOptionWord word then .error (.unexpected word)
    else do
      let reading ←
        if word.startsWith "--" then readLong specs word given
        else readShort specs word (word.toList.drop 1) given
      match reading, rest with
      | .help, _ => return .help
      | .done given, rest => readWords specs given rest
      | .wantsValue spec _, [] => throw (.missingValue spec.long)
      | .wantsValue spec given, value :: rest =>
        if isOptionWord value then throw (.missingValue spec.long)
        readWords specs (← give spec value given) rest

/-- The options of a command, all required ones among them, or a wish for help. -/
def readOptions (specs : List OptionSpec) (words : List String) : Except UsageFault Reading := do
  match ← readWords specs [] words with
  | .help => return .help
  | .options given =>
    match specs.find? fun spec => spec.isRequired && !given.any (·.1 = spec.long) with
    | some spec => throw (.missingOption spec.long)
    | none => return .options given

namespace Given

/-- The value of an option. -/
def value? (given : Given) (long : String) : Option String :=
  given.lookup long

/-- Whether an option is given. -/
def has (given : Given) (long : String) : Bool :=
  (given.value? long).isSome

end Given

/-- The variables in a list with commas. -/
def parseVars? (text : String) : Option (List Int) :=
  (Text.pieces (· == ',') text.toList).mapM
    (Text.boundedInteger? Literal.least Literal.greatest)

/-- The output format a user asks for, in letters of either case. -/
def parseFormat? (text : String) : Option OutputFormat :=
  OutputFormat.ofName? text.toLower

/-- The path of the settings where none is given. -/
def defaultConfig : String := "config/default.yaml"

/-- An option whose value is a path. -/
def pathOption (long : String) (short : Char) : OptionSpec :=
  { long, short, accepts := fun value => !value.isEmpty }

/-- An option without a value. -/
def flag (long : String) (short : Option Char) : OptionSpec :=
  { long, short, takesValue := false }

/-- The option for the formula, which has to be given. -/
def formulaOption : OptionSpec :=
  { pathOption "formula" 'f' with isRequired := true }

/-- The options of the command that enumerates solutions. -/
def solveOptions : List OptionSpec := [
  formulaOption,
  pathOption "config" 'c',
  { long := "max-solutions", short := 'm', accepts := fun v => (Text.count? v.toList).isSome },
  { long := "interesting", short := 'i', isRepeatable := true
    accepts := fun v => (parseVars? v).isSome },
  flag "aggressive" none,
  { long := "backend", short := 'b', accepts := fun v => (SolverKind.parse v).toOption.isSome },
  pathOption "solver" 's',
  pathOption "output" 'o',
  { long := "format", accepts := fun v => (parseFormat? v).isSome },
  flag "verbose" 'v']

/-- The options of the command that checks a formula. -/
def verifyOptions : List OptionSpec := [
  formulaOption,
  pathOption "config" 'c',
  flag "allow-partial" none,
  flag "verbose" 'v']

/-- The options of the command that writes settings. -/
def setupOptions : List OptionSpec :=
  [pathOption "directory" 'd', flag "force" 'f']

/-- The request to enumerate solutions. -/
def solveRequest (given : Given) : Request :=
  .solve ((given.value? "formula").getD "") ((given.value? "config").getD defaultConfig)
    { maxSolutions := (given.value? "max-solutions").bind (Text.count? ·.toList)
      kind := (given.value? "backend").bind fun v => (SolverKind.parse v).toOption
      executable := given.value? "solver"
      directory := given.value? "output"
      format := (given.value? "format").bind parseFormat?
      aggressive := given.has "aggressive" }
    ((given.reverse.filter (·.1 = "interesting")).flatMap fun (_, v) => (parseVars? v).getD [])
    (given.has "verbose")

/-- The request to check a formula. -/
def verifyRequest (given : Given) : Request :=
  .verify ((given.value? "formula").getD "") ((given.value? "config").getD defaultConfig)
    (given.has "allow-partial")

/-- The request to write settings. -/
def setupRequest (given : Given) : Request :=
  .setup ((given.value? "directory").getD ".") (given.has "force")

/-- The request of a command, given its options. -/
def readRequest (specs : List OptionSpec) (request : Given → Request) (words : List String) :
    Except UsageFault Request := do
  match ← readOptions specs words with
  | .help => return .help
  | .options given => return request given

/-- The request for help on a command. -/
def helpRequest : List String → Except UsageFault Request
  | [] => .ok .help
  | [command] =>
    if ["solve", "verify", "setup", "help"].contains command then .ok .help
    else .error (.unknownCommand command)
  | command :: word :: _ =>
    if ["solve", "verify", "setup", "help"].contains command then .error (.unknownCommand word)
    else .error (.unknownCommand command)

/-- The request of a whole command line. -/
def parse : List String → Except UsageFault Request
  | [] => .error .noCommand
  | "solve" :: words => readRequest solveOptions solveRequest words
  | "verify" :: words => readRequest verifyOptions verifyRequest words
  | "setup" :: words => readRequest setupOptions setupRequest words
  | "help" :: words => helpRequest words
  | "--help" :: _ => .ok .help
  | "--version" :: _ => .ok .version
  | word :: _ =>
    match word.toList with
    | '-' :: 'h' :: _ => .ok .help
    | '-' :: 'V' :: _ => .ok .version
    | '-' :: _ => .error (.unexpected word)
    | _ => .error (.unknownCommand word)

/-- The wording of a usage fault. -/
def UsageFault.message : UsageFault → String
  | .noCommand => "a command is required"
  | .unknownCommand word => "unrecognized command '" ++ word ++ "'"
  | .unexpected word => "unexpected argument '" ++ word ++ "'"
  | .missingValue option => "a value is required for '--" ++ option ++ "'"
  | .badValue option value => "invalid value '" ++ value ++ "' for '--" ++ option ++ "'"
  | .repeated option => "the argument '--" ++ option ++ "' cannot be used multiple times"
  | .missingOption option => "the argument '--" ++ option ++ "' is required"

end Clausal.Command
