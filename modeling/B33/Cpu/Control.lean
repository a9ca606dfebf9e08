import B33.Machine

/-!
# Control of a running processor

The control record says whether a processor runs, whether it has been asked to stop, and why it
stopped last. Hosts and the processor's loop change it one at a time, each change as a whole.
-/

namespace B33

inductive RunState where
  | stopped | running | paused
  deriving DecidableEq, Repr

def RunState.name : RunState → String
  | stopped => "Stopped"
  | running => "Running"
  | paused => "Paused"

inductive StopReason where
  | halted
  | requested
  | fault (f : Fault)
  deriving DecidableEq, Repr

def StopReason.message : StopReason → String
  | halted => "halted"
  | requested => "stop requested"
  | fault f => "fault: " ++ f.message

structure Control where
  state : RunState := .stopped
  stopRequested : Bool := false
  lastStop : Option StopReason := none
  deriving DecidableEq, Repr

namespace Control

def pause (k : Control) : Control :=
  match k.state with
  | .running => { k with state := .paused }
  | _ => k

/-- Asks a processor that is not stopped to stop before its next instruction. -/
def requestStop (k : Control) : Control :=
  match k.state with
  | .stopped => k
  | _ => { k with stopRequested := true }

def resume (k : Control) : Control :=
  match k.state with
  | .paused => { k with state := .running }
  | _ => k

def begun : Control := { state := .running }

def ended (reason : StopReason) : Control := { lastStop := some reason }

end Control

end B33
