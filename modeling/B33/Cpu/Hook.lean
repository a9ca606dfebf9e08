import B33.Cpu.Observer
import B33.Log
import B33.Machine.Disassembly
import B33.Machine.Report

/-!
# Hooks

The observers that come with the processor: recorders keep what they are told, tripwires ask for a
stop or pause when an instruction is reached, dumps print the machine, and traces report it.
-/

namespace B33

/-- An event with the registers as they were then. -/
structure Notice where
  event : Event
  registers : RegisterFile
  deriving DecidableEq, Repr

/-- The observers that a host can add to a processor. -/
inductive Hook where
  /-- Keeps events, or only those about control. The newest stand last. -/
  | recorder (controlOnly : Bool) (notices : Array Notice)
  /-- Asks for something when the instruction at an address is reached for the `remaining`th time
  from now. -/
  | tripwire (address : UInt16) (remaining : Nat) (request : Request)
  deriving DecidableEq, Repr

namespace Hook

def tell (e : Event) (m : Machine) : Hook → Hook × List Request
  | recorder controlOnly notices =>
    if controlOnly && !e.isControl then (recorder controlOnly notices, [])
    else (recorder controlOnly (notices.push { event := e, registers := m.registers }), [])
  | tripwire address remaining request =>
    if e = .before address then
      match remaining with
      | 0 => (tripwire address 0 request, [])
      | 1 => (tripwire address 0 request, [request])
      | n + 2 => (tripwire address (n + 1) request, [])
    else (tripwire address remaining request, [])

def isCurious (pc : UInt16) : Hook → Bool
  | recorder .. => false
  | tripwire address remaining _ => address == pc && remaining != 0

/-- Tells each hook of an event, in the order in which they were added. -/
def tellEach (e : Event) (m : Machine) : List Hook → List Hook × List Request
  | [] => ([], [])
  | h :: hs =>
    let (h, asked) := h.tell e m
    let (hs, askedLater) := tellEach e m hs
    (h :: hs, asked ++ askedLater)

def observer : Observer (List Hook) where
  tell := tellEach
  isCurious pc hs := hs.any (isCurious pc)

end Hook

structure DumpEntry where
  registers : Bool := true
  stack : Bool := false
  memory : List UInt16 := []
  deriving DecidableEq, Repr

structure Dump where
  /-- The entry of each address, at most one. -/
  entries : List (UInt16 × DumpEntry) := []
  all : Bool := false
  deriving DecidableEq, Repr

namespace Dump

def entryText (m : Machine) (e : DumpEntry) : String :=
  (if e.registers then Report.registersText m.registers else "") ++
    (if e.stack then Report.stackText m.stack else "") ++
    (if e.memory.isEmpty then "" else Report.memoryText m.bus e.memory)

def text (d : Dump) (e : Event) (m : Machine) : String :=
  match e with
  | .before address =>
    match d.entries.lookup address with
    | some entry => entryText m entry
    | none => if d.all then Report.registersText m.registers else ""
  | _ => ""

end Dump

def Prepared.record (p : Prepared) : LogRecord where
  level := .trace
  message :=
    Numeral.word p.address ++ ": " ++ p.instruction.mnemonic.name ++ " " ++
      p.instruction.mode.name ++ " ea=" ++ Numeral.word p.argument.effectiveAddress

def Tone.record (t : Tone) : LogRecord where
  level := .debug
  message := "sound"
  details :=
    [("tone", "Tone \x7b note: " ++ Numeral.decimal t.note.toNat ++ ", ticks: " ++
      Numeral.decimal t.ticks.toNat ++ " \x7d")]

def Machine.stepRecords (m : Machine) : List LogRecord :=
  match m.prepare with
  | (.error _, _) => []
  | (.ok p, m) =>
    match m.stackFault? p with
    | some _ => [p.record]
    | none =>
      let played := (m.perform p).bus.tones.toList.drop m.bus.tones.size
      p.record :: played.map Tone.record

def Event.records (m : Machine) : Event → List LogRecord
  | before address =>
    [{ level := .trace
       message :=
        Numeral.word address ++ "  " ++ padRight 14 (m.disassemble address) ++ " " ++
          m.registers.text }]
  | stored address =>
    [{ level := .trace
       message :=
        "store $" ++ Numeral.word address ++ " = $" ++ Numeral.byte (m.bus.inspect address) }]
  | registersChanged => []
  | hit b =>
    [{ level := .info
       message := "breakpoint at $" ++ Numeral.word b.address ++ ": " ++ m.registers.text
       details := [("kind", b.kind.name)] }]
  | stopped reason =>
    [{ level := .info
       message := "stopped at $" ++ Numeral.word m.registers.pc
       details := [("reason", reason.message)] }]

/-- What a trace and the machine report of an event, and of the instruction that it announces. -/
def Event.allRecords (m : Machine) (e : Event) : List LogRecord :=
  match e with
  | before _ => e.records m ++ m.stepRecords
  | _ => e.records m

end B33
