import B33.Console.Options

/-!
# Running commands

A command reads and writes whole files and prints text. What it does so through is its host, so the
same command runs on a disk and on a directory that is only a value.
-/

namespace B33.Console

/-- Why a command fails: what it could not do, and what was the matter, the nearest cause first. -/
structure Failure where
  message : String
  causes : List String := []
  /-- Whether the command broke off where it stood. Such a failure has no causes. -/
  isBreak : Bool := false
  deriving DecidableEq, Repr

namespace Failure

def indented (indent text : String) : String := text.replace "\n" ("\n" ++ indent)

def text (f : Failure) : String :=
  let causes := match f.causes with
    | [] => ""
    | [cause] => "\n\nCaused by:\n    " ++ indented "    " cause
    | causes =>
      "\n\nCaused by:" ++ String.join (causes.mapIdx fun i cause =>
        "\n" ++ padLeft 5 (Numeral.decimal i) ++ ": " ++ indented "       " cause)
  if f.isBreak then f.message ++ "\n" else "Error: " ++ f.message ++ causes ++ "\n"

end Failure

structure Unreadable where
  reason : String
  /-- Whether it has been opened all the same, as a directory can be. -/
  isOpen : Bool := false
  deriving DecidableEq, Repr

/-- What a command reads, writes and prints through. A file that cannot be written has a reason. -/
structure Host (m : Type → Type) where
  read : String → m (Except Unreadable (List UInt8))
  write : String → List UInt8 → m (Except String Unit)
  print : String → m Unit

abbrev Command (m : Type → Type) := ExceptT Failure m

namespace Host

variable {m : Type → Type} [Monad m]

def say (h : Host m) (s : String) : Command m Unit := ExceptT.lift (h.print s)

def readFile (h : Host m) (path : String) (failure : Unreadable → Failure) :
    Command m (List UInt8) := do
  match ← ExceptT.lift (h.read path) with
  | .ok bytes => return bytes
  | .error e => throw (failure e)

def writeFile (h : Host m) (path : String) (bytes : List UInt8) : Command m Unit := do
  match ← ExceptT.lift (h.write path bytes) with
  | .ok () => return ()
  | .error reason => throw { message := "Failed to create file: " ++ path, causes := [reason] }

end Host

inductive Exit where
  | success
  | failure (f : Failure)
  | usage (problem : String)
  deriving DecidableEq, Repr

namespace Exit

def code : Exit → UInt8
  | success => 0
  | failure f => if f.isBreak then 101 else 1
  | usage _ => 2

def errorText : Exit → String
  | success => ""
  | failure f => f.text
  | usage problem => "error: " ++ problem ++ "\n"

end Exit

def runCommand {m : Type → Type} [Monad m] (h : Host m) (spec : CommandSpec)
    (body : Host m → String → Given → Command m Unit) (args : List String) : m Exit :=
  match spec.parse args with
  | .error (.usage problem) => pure (.usage problem)
  | .error .help => do
    h.print spec.helpText
    return .success
  | .error .version => do
    h.print spec.versionText
    return .success
  | .ok (operand, given) => do
    match ← (body h operand given).run with
    | .ok () => return .success
    | .error f => return .failure f

end B33.Console
