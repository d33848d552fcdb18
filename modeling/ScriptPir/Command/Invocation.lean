import ScriptPir.Command.Flags
import ScriptPir.Numeral.Decimal
import ScriptPir.Text.Case

/-!
# What a command line asks for

The first argument that is no flag names a command. Where it names none, commands of a similar name
are suggested. The flags of a command are those that all commands have and its own.
-/

namespace ScriptPir.Command

/-- The commands. -/
inductive Verb where
  | build
  | repl
  | version
  /-- Prints a script for a shell; only its help is provided. -/
  | completion
  | help
deriving DecidableEq, Repr

/-- The name of a command. -/
def Verb.name : Verb → String
  | build => "build"
  | repl => "repl"
  | version => "version"
  | completion => "completion"
  | help => "help"

/-- All commands. -/
def Verb.all : List Verb := [.build, .repl, .version, .help, .completion]

/-- The command of a name. -/
def Verb.ofName? (name : String) : Option Verb := Verb.all.find? (·.name = name)

/-- The name of the program. -/
def programName : String := "rubypir"

/-- The flags that all commands have. -/
def commonFlags : List Flag :=
  [{ name := "config" }, { name := "verbose", letter := some 'v', isSwitch := true }]

/-- The flag that asks for help. -/
def helpFlag : Flag := { name := "help", letter := some 'h', isSwitch := true }

/-- The flags of a command. -/
def Verb.flags : Verb → List Flag
  | build => { name := "out", letter := some 'o' } :: { name := "encoding", letter := some 'e' } ::
      helpFlag :: commonFlags
  | _ => helpFlag :: commonFlags

/-! ## Finding the command -/

/-- Whether an argument is a flag whose value is the next argument. -/
def takesNext (flags : List Flag) (arg : String) : Bool :=
  let isSwitch := fun (f : Option Flag) => (f.map Flag.isSwitch).getD false
  match arg.toList with
  | '-' :: '-' :: name =>
    !name.contains '=' && !isSwitch (Flag.named? flags (String.ofList name))
  | ['-', c] => c.utf8Size = 1 && c ≠ '=' && !isSwitch (Flag.lettered? flags c)
  | _ => false

/-- Whether an argument looks like a flag. -/
def isFlag (arg : String) : Bool := arg.toList.head? = some '-'

/-- The first argument that is no flag and no value of one. -/
def firstName? (flags : List Flag) : List String → Option String
  | [] => none
  | arg :: args =>
    if arg = "--" then none
    else if takesNext flags arg then
      match args with
      | [] | [_] => none
      | _ :: args => firstName? flags args
    else if arg ≠ "" && !isFlag arg then some arg
    else firstName? flags args

/-- The arguments without the first one that names a command. -/
def withoutName (flags : List Flag) (name : String) : List String → List String
  | [] => []
  | arg :: args =>
    if arg = "--" then arg :: args
    else if takesNext flags arg then
      match args with
      | [] => [arg]
      | value :: args => arg :: value :: withoutName flags name args
    else if !isFlag arg && arg = name then args
    else arg :: withoutName flags name args

/-! ## Suggestions -/

/-- The next row of the table of distances, for one more item `a` of the first list. -/
def distanceRow {α : Type} [DecidableEq α] (a : α) : List α → (left : Nat) → List Nat → List Nat
  | b :: bs, left, diagonal :: above :: row =>
    let here := min (min (left + 1) (above + 1)) (if a = b then diagonal else diagonal + 1)
    here :: distanceRow a bs here (above :: row)
  | _, _, _ => []

/-- How many items have to be added, removed or changed to make one list of another. -/
def distance {α : Type} [DecidableEq α] (s t : List α) : Nat :=
  let rows := s.foldl
    (fun (n, row) a => (n + 1, (n + 1) :: distanceRow a t (n + 1) row))
    (0, List.range (t.length + 1))
  rows.2.getLast?.getD 0

/-- Whether a command is suggested for a name that is none. -/
def isSimilar (name : String) (v : Verb) : Bool :=
  let typed := Text.lower name
  distance typed.toUTF8.toList v.name.toUTF8.toList ≤ 2 || typed.toList.isPrefixOf v.name.toList

/-- The commands that are suggested for a name that is none. -/
def suggestions (name : String) : List String :=
  ([Verb.build, .repl, .version, .completion].filter (isSimilar name)).map Verb.name

/-! ## Invocations -/

/-- What is wrong with a command line. -/
inductive UsageError where
  | unknownCommand (name : String)
  | flag (error : FlagError)
  | tooFew
  | tooMany (verb : Verb) (arg : String)
deriving DecidableEq, Repr

/-- The text of an error. -/
def UsageError.message : UsageError → String
  | unknownCommand name =>
    let hints := suggestions name
    "unknown command " ++ Text.quote name ++ " for " ++ Text.quote programName ++
      if hints.isEmpty then ""
      else "\n\nDid you mean this?\n" ++ String.join (hints.map fun h => "\t" ++ h ++ "\n")
  | flag error => error.message
  | tooFew => "requires at least 1 arg(s), only received 0"
  | tooMany verb arg =>
    "unknown command " ++ Text.quote arg ++ " for " ++
      Text.quote (programName ++ " " ++ verb.name)

/-- What to do. -/
inductive Job where
  /-- Builds files; a directory or an encoding that is given replaces that of the settings. -/
  | build (files : List String) (outputDir encoding : Option String)
  | repl
  | version
deriving DecidableEq, Repr

/-- What a command line asks for. -/
inductive Invocation where
  | help
  /-- A job under the settings of a file. -/
  | run (job : Job) (configPath : String) (verbose : Bool)
deriving DecidableEq, Repr

/-- Where settings are looked for. -/
def defaultConfigPath : String := "rubypir.yaml"

/-- The job of a command with its arguments. -/
def Verb.job (verb : Verb) (a : Arguments) : Except UsageError Job :=
  match verb, a.rest with
  | .build, [] => .error .tooFew
  | .build, files => .ok (.build files (a.value? "out") (a.value? "encoding"))
  | verb, arg :: _ => .error (.tooMany verb arg)
  | .repl, [] => .ok .repl
  | _, [] => .ok .version

/-- Reads the arguments of a command. -/
def Verb.invocation (verb : Verb) (args : List String) : Except UsageError Invocation := do
  let a ← (Flag.read verb.flags false args {}).mapError .flag
  if a.isOn "help" || verb = .help || verb = .completion then return .help
  let job ← verb.job a
  return .run job ((a.value? "config").getD defaultConfigPath) (a.isOn "verbose")

/-- Reads a command line. -/
def Invocation.ofArgs (args : List String) : Except UsageError Invocation := do
  match firstName? commonFlags args with
  | none =>
    let _ ← (Flag.read (helpFlag :: commonFlags) false args {}).mapError .flag
    return .help
  | some name =>
    match Verb.ofName? name with
    | some verb => verb.invocation (withoutName commonFlags name args)
    | none => throw (.unknownCommand name)

end ScriptPir.Command
