import B33.Text.Columns
import B33.Text.Numeral

/-!
# Command-line arguments

A command has one operand and some options, each with a long name and perhaps a letter. An option
either stands alone or takes a value: the next argument, or what follows it after an equals sign or,
behind a letter, directly. Arguments are looked at from left to right, and the first that is wrong or
asks for help or the version decides.
-/

namespace B33.Console

structure OptionSpec where
  long : String
  letter : Option Char := none
  value : Option String := none
  isRepeatable : Bool := false
  accepts : String → Bool := fun _ => true
  help : String

structure CommandSpec where
  name : String
  about : String
  operand : String
  operandHelp : String
  options : List OptionSpec

structure Given where
  operand : Option String := none
  options : List (String × String) := []
  deriving DecidableEq, Repr

namespace Given

def has (g : Given) (long : String) : Bool := g.options.any (·.1 == long)

def values (g : Given) (long : String) : List String :=
  (g.options.filter (·.1 == long)).map (·.2)

def value? (g : Given) (long : String) : Option String := (g.values long).head?

end Given

inductive Refusal where
  | usage (problem : String)
  | help
  | version
  deriving DecidableEq, Repr

/-- A natural number below 2 to the 64, which can have a plus sign. -/
def number? (s : String) : Option Nat :=
  let digits := match s.toList with
    | '+' :: cs => cs
    | cs => cs
  (Numeral.value? 10 digits).filter (· < Nat.pow 2 64)

namespace CommandSpec

def common : List OptionSpec :=
  [{ long := "help", letter := some 'h', help := "Print help" },
    { long := "version", letter := some 'V', help := "Print version" }]

def allOptions (c : CommandSpec) : List OptionSpec := c.options ++ common

def note (g : Given) (o : OptionSpec) (value : String) : Except Refusal Given :=
  if o.long = "help" then .error .help
  else if o.long = "version" then .error .version
  else if g.has o.long && !o.isRepeatable then
    .error (.usage ("the argument '--" ++ o.long ++ "' cannot be used multiple times"))
  else if !o.accepts value then
    .error (.usage ("invalid value '" ++ value ++ "' for '--" ++ o.long ++ "'"))
  else .ok { g with options := g.options ++ [(o.long, value)] }

def noteOperand (g : Given) (s : String) : Except Refusal Given :=
  match g.operand with
  | none => .ok { g with operand := some s }
  | some _ => .error (.usage ("unexpected argument '" ++ s ++ "' found"))

def afterEquals (cs : List Char) : List Char :=
  match cs with
  | '=' :: rest => rest
  | rest => rest

/-- Takes note of the options behind one hyphen. The answer also has the option that still waits for
its value. -/
def noteLetters (c : CommandSpec) (g : Given) :
    List Char → Except Refusal (Given × Option OptionSpec)
  | [] => .ok (g, none)
  | letter :: rest =>
    match c.allOptions.find? (·.letter == some letter) with
    | none => .error (.usage ("unexpected argument '-" ++ letter.toString ++ "' found"))
    | some o =>
      if o.value.isNone then do noteLetters c (← note g o "") rest
      else if rest.isEmpty then .ok (g, some o)
      else do return (← note g o (String.ofList (afterEquals rest)), none)

def noteLong (c : CommandSpec) (g : Given) (cs : List Char) :
    Except Refusal (Given × Option OptionSpec) :=
  let name := String.ofList (cs.takeWhile (· != '='))
  let value := cs.dropWhile (· != '=')
  match c.allOptions.find? (·.long == name) with
  | none => .error (.usage ("unexpected argument '--" ++ name ++ "' found"))
  | some o =>
    match o.value.isSome, value with
    | true, [] => .ok (g, some o)
    | true, _ :: value => do return (← note g o (String.ofList value), none)
    | false, [] => do return (← note g o "", none)
    | false, _ :: _ => .error (.usage ("unexpected value for '--" ++ o.long ++ "' found"))

/-- Whether an argument is an option and cannot be a value. A hyphen alone is none. -/
def isOption (s : String) : Bool :=
  match s.toList with
  | '-' :: _ :: _ => true
  | _ => false

/-- Takes note of arguments. `waiting` is the option that the next one is the value of. -/
def noteAll (c : CommandSpec) (g : Given) (waiting : Option OptionSpec) :
    List String → Except Refusal Given
  | [] =>
    match waiting with
    | some o => .error (.usage ("a value is required for '--" ++ o.long ++ "' but none was supplied"))
    | none => .ok g
  | arg :: args =>
    match waiting with
    | some o =>
      if isOption arg then
        .error (.usage ("a value is required for '--" ++ o.long ++ "' but none was supplied"))
      else do noteAll c (← note g o arg) none args
    | none =>
      if arg = "--" then args.foldlM noteOperand g
      else
        match arg.toList with
        | '-' :: '-' :: cs => do
          let (g, waiting) ← noteLong c g cs
          noteAll c g waiting args
        | '-' :: letter :: letters => do
          let (g, waiting) ← noteLetters c g (letter :: letters)
          noteAll c g waiting args
        | _ => do noteAll c (← noteOperand g arg) none args

/-- Reads the arguments of a command, which have to name the operand. -/
def parse (c : CommandSpec) (args : List String) : Except Refusal (String × Given) := do
  let g ← c.noteAll {} none args
  match g.operand with
  | some operand => return (operand, g)
  | none =>
    throw (.usage ("the following required arguments were not provided: <" ++ c.operand ++ ">"))

def version : String := "0.1.0"

def versionText (c : CommandSpec) : String := c.name ++ " " ++ version ++ "\n"

def optionText (o : OptionSpec) : String :=
  let letter := match o.letter with
    | some l => "-" ++ l.toString ++ ", "
    | none => "    "
  let value := match o.value with
    | some v => " <" ++ v ++ ">"
    | none => ""
  letter ++ "--" ++ o.long ++ value

def helpText (c : CommandSpec) : String :=
  let width := (c.allOptions.map fun o => (optionText o).length).foldl max 0
  c.versionText ++ "  " ++ c.about ++ "\n\nUsage:\n  " ++ c.name ++ " [OPTIONS] <" ++ c.operand ++
    ">\n\nArguments:\n  <" ++ c.operand ++ ">  " ++ c.operandHelp ++ "\n\nOptions:\n" ++
    String.join (c.allOptions.map fun o =>
      "  " ++ padRight width (optionText o) ++ "  " ++ o.help ++ "\n")

end CommandSpec

end B33.Console
