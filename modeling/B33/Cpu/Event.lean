import B33.Breakpoints
import B33.Cpu.Control
import B33.Machine.Step

/-!
# Events

Observers of a processor are told what happens to it, in order, each time with the machine as it is
then.
-/

namespace B33

inductive Event where
  | before (address : UInt16)
  | stored (address : UInt16)
  | registersChanged
  | hit (b : Breakpoint)
  | stopped (reason : StopReason)
  deriving DecidableEq, Repr

namespace Event

/-- Whether the event is about control, and not about single instructions. -/
def isControl : Event → Bool
  | hit _ | stopped _ => true
  | _ => false

end Event

/-- The events of an executed instruction, given the registers before and after it. -/
def Step.events (s : Step) (before after : RegisterFile) : List Event :=
  (s.store.map Event.stored).toList ++ if after = before then [] else [.registersChanged]

def tellAll {σ : Type} (tell : Event → Machine → σ → σ) (m : Machine) (es : List Event) (s : σ) : σ :=
  es.foldl (fun s e => tell e m s) s

namespace Machine

/-- Executes up to `bound` instructions while an observer watches, until a halt or fault. A
breakpoint is told of and does not hold the machine up. -/
def watch {σ : Type} (tell : Event → Machine → σ → σ) (breakpoints : Breakpoints) :
    Nat → Machine → σ → Machine × σ
  | 0, m, s => (m, s)
  | bound + 1, m, s =>
    let before := m.registers
    let s := tell (.before before.pc) m s
    match m.step with
    | (.error fault, m) => (m, tell (.stopped (.fault fault)) m s)
    | (.ok step, m) =>
      let s := tellAll tell m (step.events before m.registers) s
      if step.halted then (m, tell (.stopped .halted) m s)
      else
        let hit := breakpoints.check m.registers.pc step.store
        watch tell breakpoints bound m (tellAll tell m (hit.map Event.hit).toList s)

end Machine

end B33
