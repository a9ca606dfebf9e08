import B33.Bus.Screen
import B33.Console.Assembler
import B33.Settings
import B33.Text.Style

/-!
# The emulator's command

The command loads a program, runs it to its end, and prints what it left behind. Breakpoints are
printed and passed. A run that no longer does anything is stopped if there is a limit to its time.
-/

namespace B33.Console.Emulator

def spec : CommandSpec where
  name := "b33emu"
  about := "Emulator for the B33 CPU"
  operand := "FILE"
  operandHelp := "B33 executable, or a raw binary loaded at --origin"
  options :=
    [{ long := "origin", value := some "ORIGIN", accepts := Assembler.isAddress
       help := "Load address of a raw binary" },
      { long := "config", letter := some 'c', value := some "CONFIG"
        help := "YAML run configuration" },
      { long := "speed", letter := some 's', value := some "SPEED"
        accepts := fun s => (number? s).isSome, help := "Milliseconds per instruction" },
      { long := "breakpoint", letter := some 'b', value := some "BREAKPOINTS", isRepeatable := true
        accepts := Assembler.isAddress, help := "Execution breakpoint (repeatable)" },
      { long := "keys", letter := some 'k', value := some "KEYS"
        help := "Text typed into the keyboard buffer" },
      { long := "timeout", letter := some 't', value := some "TIMEOUT"
        accepts := fun s => (number? s).isSome
        help := "Stop the program after this many seconds" },
      { long := "dump-all", letter := some 'a'
        help := "Print registers before every instruction" }]

def invalidSettings (path reason : String) : Failure :=
  { message := "Invalid config " ++ path ++ ": " ++ reason, causes := [reason] }

/-- The failure to read settings. It tells a file that cannot be opened from one that can. -/
def unreadSettings (path : String) (e : Unreadable) : Failure :=
  if e.isOpen then invalidSettings path e.reason
  else { message := "Failed to open config " ++ path ++ ": " ++ e.reason, causes := [e.reason] }

def loadFailure (path : String) (causes : List String) : Failure :=
  { message := "Failed to load " ++ path, causes }

def banner (path : String) : String :=
  let rule := "+-----------------------------------------------+\n"
  rule ++ "| " ++ padRight 45 path ++ " |\n" ++ rule

def hitText (b : Breakpoint) (r : RegisterFile) : String :=
  " " ++ Style.paint .yellow "break" ++ " " ++ b.kind.name ++ " $" ++ Numeral.word b.address ++
    "\n" ++ Report.registersText r

def observer (d : Dump) : Observer String where
  tell e m out :=
    (match e with
      | .hit b => out ++ hitText b m.registers
      | e => out ++ d.text e m, [])
  isCurious _ _ := false

/-- How many phases a run goes on between two looks at it. -/
def phaseBound : Nat := 100000000

/-- Lets a processor run on from breakpoint to breakpoint, at most `bound` times. -/
def pass (o : Observer String) : Nat → Cpu → String → Cpu × String
  | 0, c, out => (c, out)
  | bound + 1, c, out =>
    match c.settle o phaseBound out with
    | (c, out) =>
      if c.control.state = .paused then pass o bound (c.start true) out else (c, out)

def runToEnd (d : Dump) (timeout : Option Nat) (c : Cpu) : Cpu × String :=
  let (c, out) := pass (observer d) phaseBound (c.start true) ""
  if c.control.state = .stopped || timeout.isNone then (c, out)
  else c.stop.settle (observer d) phaseBound (out ++ " " ++ Style.paint .red "timeout" ++ "\n")

def screenText (b : Bus) (number : Nat) : String :=
  match Bus.screenBase? number with
  | none => ""
  | some base =>
    let rows := Screen.shown b base
    if rows.isEmpty then ""
    else
      " Monitor " ++ Numeral.decimal number ++ "\n" ++ String.join (rows.map fun (i, row) =>
        " " ++ padLeft 2 (Numeral.decimal i) ++ " | " ++ row ++ "\n")

def reasonText : Option StopReason → String
  | some (.fault f) => " " ++ Style.paint .red f.message ++ "\n"
  | some reason => " " ++ Style.paint .green reason.message ++ "\n"
  | none => ""

def exitText (c : Cpu) : String :=
  let tones := c.machine.bus.tones.size
  "[EXIT]\n" ++ reasonText c.control.lastStop ++ Report.registersText c.machine.registers ++
    screenText c.machine.bus 1 ++ screenText c.machine.bus 2 ++
    (if tones = 0 then "" else " * Tones[" ++ Numeral.decimal tones ++ "]\n") ++
    "=================================================\n"

variable {m : Type → Type} [Monad m]

def readSettings (h : Host m) : Option String → Command m Settings
  | none => return {}
  | some path => do
    let bytes ← h.readFile path (unreadSettings path)
    match Settings.read bytes with
    | .ok settings => return settings
    | .error e => throw (invalidSettings path e.message)

def readProgram (h : Host m) (path : String) (origin : UInt16) : Command m (Program × Cpu) := do
  let data ← h.readFile path fun e =>
    loadFailure path [(CpuError.unreadable path e.reason).message, e.reason]
  match ({} : Cpu).loadImage data origin with
  | .ok loaded => return loaded
  | .error e => throw (loadFailure path [e.message])

def breakpointsOf (g : Given) (s : Settings) : Breakpoints :=
  let given := (g.values "breakpoint").filterMap fun a => (Address.parse a).toOption
  let execution := (given ++ s.breakpoints).map fun a => (⟨.execution, a⟩ : Breakpoint)
  let store := s.storeBreakpoints.map fun a => (⟨.store, a⟩ : Breakpoint)
  (execution ++ store).foldl Breakpoints.add {}

def programText (p : Program) : String :=
  "[INIT]\n * Program $" ++ Numeral.word p.origin ++ "-$" ++ Numeral.hex 4 (p.endAddress - 1) ++
    ", entry $" ++ Numeral.word p.entry ++ "\n"

def body (h : Host m) (path : String) (g : Given) : Command m Unit := do
  h.say "B33 Emulator\n"
  let settings ← readSettings h (g.value? "config")
  h.say (banner path)
  let (program, cpu) ← readProgram h path (Assembler.originOf g)
  h.say (programText program)
  let dump : Dump := { entries := settings.dump, all := g.has "dump-all" }
  if !dump.entries.isEmpty then
    h.say (" * Dump[" ++ Numeral.decimal dump.entries.length ++ "] " ++
      (g.value? "config").getD "" ++ "\n")
  let breakpoints := breakpointsOf g settings
  h.say (String.join (breakpoints.toList.map fun b =>
    " * Breakpoint " ++ b.kind.name ++ " $" ++ Numeral.word b.address ++ "\n"))
  let cpu := { cpu with breakpoints }
  let keys := (g.value? "keys").or settings.keys
  if let some keys := keys then
    h.say (" * Keys[" ++ Numeral.decimal keys.utf8ByteSize ++ "]\n")
  let cpu := cpu.withBus fun b => (keys.map b.typeText).getD b
  h.say "[RUN]\n"
  let timeout := ((g.value? "timeout").bind number?).or settings.timeout
  let (cpu, out) := runToEnd dump timeout cpu
  h.say out
  h.say (exitText cpu)
  match cpu.control.lastStop with
  | some (.fault f) => throw { message := f.message }
  | _ => return ()

def run (h : Host m) (args : List String) : m Exit := runCommand h spec body args

end B33.Console.Emulator
