import B33.Cpu

/-!
# Observed runs

An observer is told of every event of a run and can ask for a pause or a stop, which then comes
before the next phase of the loop. `settle` lets a processor run undisturbed otherwise, until it has
ended or waits, or until nothing more will come of it.
-/

namespace B33

inductive Request where
  | pause | stop
  deriving DecidableEq, Repr

def Cpu.grant (c : Cpu) : Request → Cpu
  | .pause => c.pause
  | .stop => c.stop

structure Observer (σ : Type) where
  tell : Event → Machine → σ → σ × List Request
  /-- Whether it still waits for the instruction at an address to be reached, so that coming back to
  it matters even if nothing else happens. -/
  isCurious : UInt16 → σ → Bool

namespace Observer

variable {σ : Type}

def tellAll (o : Observer σ) : List Event → Cpu → σ → Cpu × σ
  | [], c, s => (c, s)
  | e :: es, c, s =>
    let (s, requests) := o.tell e c.machine s
    o.tellAll es (requests.foldl Cpu.grant c) s

end Observer

namespace Cpu

/-- Whether the processor has just executed an instruction that it will execute again and again, with
nothing else happening. -/
def isIdle (c : Cpu) : Bool :=
  match c.loops with
  | .checking s :: _ =>
    s.address == c.machine.registers.pc && !c.control.stopRequested &&
      c.control.state == .running &&
      (c.breakpoints.check c.machine.registers.pc none).isNone && c.machine.isStill
  | _ => false

/-- Lets the processor run for at most `bound` phases, until it waits or has ended. An idle run is
left alone, unless the observer waits for its instruction. -/
def settle {σ : Type} (o : Observer σ) : Nat → Cpu → σ → Cpu × σ
  | 0, c, s => (c, s)
  | bound + 1, c, s =>
    if c.isIdle && !o.isCurious c.machine.registers.pc s then (c, s)
    else
      match c.advance with
      | none => (c, s)
      | some (c, events) =>
        match o.tellAll events c s with
        | (c, s) => settle o bound c s

end Cpu

end B33
