import ScriptPir.Text.Quoted

/-!
# Flags on a command line

A flag has a long name, after two dashes, and may have a letter, after one. Letters can be grouped. A
value follows an equals sign or is the next argument; a switch needs none. Flags and other arguments
may be mixed up to an argument of two dashes.
-/

namespace ScriptPir.Command

/-- A flag. -/
structure Flag where
  name : String
  letter : Option Char := none
  /-- Whether the flag is on or off; else it has a text. -/
  isSwitch : Bool := false
deriving DecidableEq, Repr

/-- A flag as it is named in messages. -/
def Flag.title (f : Flag) : String :=
  match f.letter with
  | some c => "-" ++ c.toString ++ ", --" ++ f.name
  | none => "--" ++ f.name

/-- What is wrong with the flags of a command line. -/
inductive FlagError where
  | malformed (arg : String)
  | unknown (name : String)
  /-- A letter is unknown, in a group that starts with it. -/
  | unknownLetter (group : List Char)
  | noValue (arg : String)
  | noLetterValue (group : List Char)
  | noSwitch (flag : Flag) (value : String)
deriving DecidableEq, Repr

/-- The first byte of a character, shown as a character. -/
def firstByte (c : Char) : Char :=
  match String.utf8EncodeChar c with
  | b :: _ => Char.ofNat b.toNat
  | [] => c

/-- A group as it is shown in messages: its first letter, quoted, and the whole of it. -/
def showGroup (group : List Char) : String :=
  Text.quoteChar (firstByte (group.headD ' ')) ++ " in -" ++ String.ofList group

/-- The text of an error. -/
def FlagError.message : FlagError → String
  | malformed arg => "bad flag syntax: " ++ arg
  | unknown name => "unknown flag: --" ++ name
  | unknownLetter group => "unknown shorthand flag: " ++ showGroup group
  | noValue arg => "flag needs an argument: " ++ arg
  | noLetterValue group => "flag needs an argument: " ++ showGroup group
  | noSwitch flag value =>
    "invalid argument " ++ Text.quote value ++ " for " ++ Text.quote flag.title ++
      " flag: strconv.ParseBool: parsing " ++ Text.quote value ++ ": invalid syntax"

/-- Whether a text turns a switch on or off. -/
def switch? : String → Option Bool
  | "1" | "t" | "T" | "true" | "TRUE" | "True" => some true
  | "0" | "f" | "F" | "false" | "FALSE" | "False" => some false
  | _ => none

/-- What a command line says: values of flags, the last first, and the other arguments. -/
structure Arguments where
  values : List (String × String) := []
  rest : List String := []
deriving DecidableEq, Repr

/-- The value of a flag, if it was given. -/
def Arguments.value? (a : Arguments) (name : String) : Option String := a.values.lookup name

/-- Whether a switch is on. -/
def Arguments.isOn (a : Arguments) (name : String) : Bool :=
  ((a.value? name).bind switch?).getD false

namespace Flag

/-- The flag of a name. -/
def named? (flags : List Flag) (name : String) : Option Flag := flags.find? (·.name = name)

/-- The flag of a letter. -/
def lettered? (flags : List Flag) (c : Char) : Option Flag := flags.find? (·.letter = some c)

/-- Gives a flag its value. -/
def set (f : Flag) (value : String) (a : Arguments) : Except FlagError Arguments :=
  if f.isSwitch && (switch? value).isNone then .error (.noSwitch f value)
  else .ok { a with values := (f.name, value) :: a.values }

/-- Reads a long flag, with its dashes in front. Says whether its value was the next argument. -/
def readLong (flags : List Flag) (arg : String) (next : Option String) (a : Arguments) :
    Except FlagError (Arguments × Bool) := do
  let body := arg.toList.drop 2
  if body.head? = none || body.head? = some '-' || body.head? = some '=' then throw (.malformed arg)
  let name := String.ofList (body.takeWhile (· ≠ '='))
  let some f := named? flags name | throw (.unknown name)
  match body.dropWhile (· ≠ '='), next with
  | _ :: value, _ => return (← f.set (String.ofList value) a, false)
  | [], some value =>
    if f.isSwitch then return (← f.set "true" a, false) else return (← f.set value a, true)
  | [], none => if f.isSwitch then return (← f.set "true" a, false) else throw (.noValue arg)

/-- Reads a group of letters. Says whether the value of the last one was the next argument. -/
def readLetters (flags : List Flag) (next : Option String) :
    List Char → Arguments → Except FlagError (Arguments × Bool)
  | [], a => .ok (a, false)
  | c :: group, a => do
    if "test.".toList.isPrefixOf (c :: group) then return (a, false)
    let some f := lettered? flags c | throw (.unknownLetter (c :: group))
    match group, next with
    | '=' :: v :: value, _ => return (← f.set (String.ofList (v :: value)) a, false)
    | group, next =>
      if f.isSwitch then readLetters flags next group (← f.set "true" a)
      else match group, next with
      | v :: value, _ => return (← f.set (String.ofList (v :: value)) a, false)
      | [], some value => return (← f.set value a, true)
      | [], none => throw (.noLetterValue [c])

/-- Reads a command line; `passed` says that the first argument was the value of a flag. -/
def read (flags : List Flag) : (passed : Bool) → List String → Arguments →
    Except FlagError Arguments
  | _, [], a => .ok a
  | true, _ :: args, a => read flags false args a
  | false, arg :: args, a => do
    match arg.toList with
    | ['-', '-'] => return { a with rest := a.rest ++ args }
    | '-' :: '-' :: _ =>
      let (a, passed) ← readLong flags arg args.head? a
      read flags passed args a
    | '-' :: c :: group =>
      let (a, passed) ← readLetters flags args.head? (c :: group) a
      read flags passed args a
    | _ => read flags false args { a with rest := a.rest ++ [arg] }

end Flag

end ScriptPir.Command
