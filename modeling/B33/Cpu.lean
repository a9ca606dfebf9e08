import B33.Cpu.Event
import B33.Executable

/-!
# The processor under control

A processor runs in a loop of its own, while hosts start, pause and stop it, load programs and arm
breakpoints. Loop and hosts take turns in an order that nobody fixes: a host can act between any two
phases of the loop, and a phase is done as a whole. So a sequence of phases and of what hosts do in
between is all there is to a schedule.
-/

namespace B33

/-- Where the loop of a run is. -/
inductive Phase where
  /-- It is about to look whether it may go on. -/
  | turn
  /-- It is about to tell of the next instruction. -/
  | announcing
  /-- It is about to execute the next instruction. -/
  | executing
  /-- It is about to look for a breakpoint. -/
  | checking (s : Step)
  /-- It is about to pause at a breakpoint. -/
  | hitting (b : Breakpoint)
  /-- It is about to tell of a breakpoint. -/
  | reporting (b : Breakpoint)
  /-- It is waiting a moment between instructions. -/
  | resting
  /-- It is about to tell that the run ends. -/
  | finishing (reason : StopReason)
  /-- It is about to end the run. -/
  | closing (reason : StopReason)
  deriving DecidableEq, Repr

inductive CpuError where
  | notStopped
  | format (e : FormatError)
  | bus (e : BusError)
  | unreadable (path reason : String)
  deriving DecidableEq, Repr

def CpuError.message : CpuError → String
  | notStopped => "CPU must be stopped"
  | format e => e.message
  | bus e => e.message
  | unreadable path reason => "Failed to open file " ++ path ++ ": " ++ reason

/-- A machine with its breakpoints, its control record, and the loops that run it. -/
structure Cpu where
  machine : Machine := .standard
  breakpoints : Breakpoints := {}
  control : Control := {}
  /-- The loops that have not ended. There is never more than one. -/
  loops : List Phase := []

namespace Cpu

/-- What the loop does next, once it has looked at the control record. A paused loop stays. -/
def takeTurn (k : Control) : Phase :=
  if k.stopRequested then .finishing .requested
  else
    match k.state with
    | .running => .announcing
    | .paused => .turn
    | .stopped => .finishing .requested

def afterStep : Except Fault Step → Phase
  | .error fault => .finishing (.fault fault)
  | .ok s => if s.halted then .finishing .halted else .checking s

/-- One phase of the loop: what the loop does next, if it has not ended, and what it tells. -/
def runPhase : Phase → Cpu → Option Phase × Cpu × List Event
  | .turn, c => (some (takeTurn c.control), c, [])
  | .announcing, c => (some .executing, c, [.before c.machine.registers.pc])
  | .executing, ⟨machine, breakpoints, control, loops⟩ =>
    let before := machine.registers
    match machine.step with
    | (.ok s, machine) =>
      (some (afterStep (.ok s)), ⟨machine, breakpoints, control, loops⟩,
        s.events before machine.registers)
    | (.error fault, machine) =>
      (some (afterStep (.error fault)), ⟨machine, breakpoints, control, loops⟩, [])
  | .checking s, c =>
    match c.breakpoints.check c.machine.registers.pc s.store with
    | some b => (some (.hitting b), c, [])
    | none => (some .resting, c, [])
  | .hitting b, c =>
    if c.control.stopRequested then (some .resting, c, [])
    else (some (.reporting b), { c with control := { c.control with state := .paused } }, [])
  | .reporting b, c => (some .resting, c, [.hit b])
  | .resting, c => (some .turn, c, [])
  | .finishing reason, c => (some (.closing reason), c, [.stopped reason])
  | .closing reason, c => (none, { c with control := .ended reason }, [])

def isWaiting (k : Control) (phase : Phase) : Bool :=
  phase == .turn && takeTurn k == .turn

/-- Lets the first loop do a phase, if there is one that does not wait. -/
def advance : Cpu → Option (Cpu × List Event)
  | ⟨_, _, _, []⟩ => none
  | ⟨machine, breakpoints, control, phase :: others⟩ =>
    if isWaiting control phase then none
    else
      match runPhase phase ⟨machine, breakpoints, control, others⟩ with
      | (next, c, events) => some ({ c with loops := next.toList ++ others }, events)

/-- Starts a run, or lets a paused one go on. A run has a loop, and `spawned` says whether there is
room for one more. -/
def start (c : Cpu) (spawned : Bool) : Cpu :=
  match c.control.state with
  | .running => c
  | .paused => { c with control := c.control.resume }
  | .stopped =>
    if spawned then { c with control := .begun, loops := c.loops ++ [.turn] }
    else { c with control := {} }

def pause (c : Cpu) : Cpu := { c with control := c.control.pause }

def stop (c : Cpu) : Cpu := { c with control := c.control.requestStop }

/-- Loads a program into a stopped processor. -/
def load (c : Cpu) (bytes : List UInt8) (origin entry : UInt16) : Except CpuError Cpu :=
  match c.control.state with
  | .stopped =>
    match c.machine.load origin bytes entry with
    | .ok machine => .ok { c with machine, control := { c.control with lastStop := none } }
    | .error e => .error (.bus e)
  | _ => .error .notStopped

def loadImage (c : Cpu) (data : List UInt8) (origin : UInt16) : Except CpuError (Program × Cpu) :=
  match Program.ofImage data origin with
  | .error e => .error (.format e)
  | .ok p =>
    match c.load p.bytes p.origin p.entry with
    | .ok c => .ok (p, c)
    | .error e => .error e

def withBus (c : Cpu) (f : Bus → Bus) : Cpu :=
  match c with
  | ⟨⟨registers, stack, bus⟩, breakpoints, control, loops⟩ =>
    ⟨⟨registers, stack, f bus⟩, breakpoints, control, loops⟩

def addBreakpoint (c : Cpu) (b : Breakpoint) : Cpu := { c with breakpoints := c.breakpoints.add b }

def removeBreakpoint (c : Cpu) (b : Breakpoint) : Cpu :=
  { c with breakpoints := c.breakpoints.remove b }

def clearBreakpoints (c : Cpu) : Cpu := { c with breakpoints := {} }

end Cpu

end B33
