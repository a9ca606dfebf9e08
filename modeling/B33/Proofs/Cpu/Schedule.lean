import B33.Cpu.Observer

/-!
# Schedules

A schedule is what hosts and loops do, one after another. Any number of hosts share it, since it
does not matter which of them acts, and every loop that has not ended can be given the next phase. A
schedule leaves a trail of notes: what observers are told, and in between what was executed, and
where runs begin and end. A run that an observer watches follows one of these schedules.
-/
namespace B33

/-- What a host does to a processor. -/
inductive HostAction where
  /-- Begins a run or lets a paused one go on; `spawned` says whether there is room for a loop. -/
  | start (spawned : Bool)
  | pause
  | stop
  | load (bytes : List UInt8) (origin entry : UInt16)
  | addBreakpoint (b : Breakpoint)
  | removeBreakpoint (b : Breakpoint)
  | clearBreakpoints
  /-- Pokes memory or acts on a device. -/
  | onBus (f : Bus → Bus)

/-- One turn of a schedule: a host acts, or the `i`th loop does its next phase. -/
inductive Action where
  | host (h : HostAction)
  | loop (i : Nat)

/-- Whether an action leaves the machine to the loop. -/
def Action.isQuiet : Action → Bool
  | .host (.load ..) | .host (.onBus _) => false
  | _ => true

inductive Note where
  /-- A run begins. -/
  | began
  /-- A run was to begin, and there was no room for its loop. -/
  | refused
  | loaded
  | executed (outcome : Except Fault Step)
  /-- Observers are told of an event, and shown the machine. -/
  | told (e : Event) (m : Machine)
  /-- A run has ended. -/
  | ended (reason : StopReason)

def Note.event? : Note → Option Event
  | .told e _ => some e
  | _ => none

/-- What a phase does apart from telling, given the machine before it. -/
def Phase.notes : Phase → Machine → List Note
  | .executing, m => [.executed m.step.1]
  | .closing reason, _ => [.ended reason]
  | _, _ => []

namespace Cpu

variable {c : Cpu} {σ : Type}

/-- The events of an instruction that has been tried, given the registers before and after it. -/
def outcomeEvents (before after : RegisterFile) : Except Fault Step → List Event
  | .ok s => s.events before after
  | .error _ => []

theorem runPhase_turn (c : Cpu) : runPhase .turn c = (some (takeTurn c.control), c, []) := rfl

theorem runPhase_executing (c : Cpu) :
    runPhase .executing c =
      (some (afterStep c.machine.step.1), { c with machine := c.machine.step.2 },
        outcomeEvents c.machine.registers c.machine.step.2.registers c.machine.step.1) := by
  obtain ⟨machine, breakpoints, control, loops⟩ := c
  unfold runPhase
  dsimp only
  rcases machine.step with ⟨fault | s, after⟩
  · rfl
  · rfl

theorem runPhase_checking (s : Step) (c : Cpu) :
    runPhase (.checking s) c =
      (some ((c.breakpoints.check c.machine.registers.pc s.store).elim .resting .hitting), c,
        []) := by
  unfold runPhase
  dsimp only
  cases c.breakpoints.check c.machine.registers.pc s.store with
  | none => rfl
  | some b => rfl

theorem runPhase_hitting (b : Breakpoint) (c : Cpu) :
    runPhase (.hitting b) c =
      if c.control.stopRequested then (some .resting, c, [])
      else (some (.reporting b), { c with control := { c.control with state := .paused } }, []) :=
  rfl

theorem runPhase_closing (reason : StopReason) (c : Cpu) :
    runPhase (.closing reason) c = (none, { c with control := .ended reason }, []) := rfl

/-- No phase looks at the loops. -/
theorem runPhase_loops (phase : Phase) (c : Cpu) (loops : List Phase) :
    runPhase phase { c with loops } =
      ((runPhase phase c).1, { (runPhase phase c).2.1 with loops }, (runPhase phase c).2.2) := by
  cases phase with
  | turn | announcing | reporting | resting | finishing | closing => rfl
  | executing => simp only [runPhase_executing]
  | checking s => simp only [runPhase_checking]
  | hitting b =>
      rw [runPhase_hitting, runPhase_hitting]
      dsimp only
      split
      · rfl
      · rfl

/-- What a host's action does. A program that cannot be loaded changes nothing. -/
def hostAct (c : Cpu) : HostAction → Cpu × List Note
  | .start spawned =>
    (c.start spawned,
      if c.control.state = .stopped then [if spawned then .began else .refused] else [])
  | .pause => (c.pause, [])
  | .stop => (c.stop, [])
  | .load bytes origin entry =>
    match c.load bytes origin entry with
    | .ok c => (c, [.loaded])
    | .error _ => (c, [])
  | .addBreakpoint b => (c.addBreakpoint b, [])
  | .removeBreakpoint b => (c.removeBreakpoint b, [])
  | .clearBreakpoints => (c.clearBreakpoints, [])
  | .onBus f => (c.withBus f, [])

theorem hostAct_start_of_stopped (h : c.control.state = .stopped) (spawned : Bool) :
    c.hostAct (.start spawned) =
      if spawned then ({ c with control := .begun, loops := c.loops ++ [.turn] }, [.began])
      else ({ c with control := {} }, [.refused]) := by
  simp only [hostAct, start, h]
  cases spawned <;> rfl

theorem hostAct_start_of_running (h : c.control.state ≠ .stopped) (spawned : Bool) :
    c.hostAct (.start spawned) = ({ c with control := c.control.resume }, []) := by
  simp only [hostAct, start, Control.resume, if_neg h]
  cases hstate : c.control.state with
  | stopped => exact absurd hstate h
  | running | paused => rfl

theorem load_eq_ok {bytes : List UInt8} {origin entry : UInt16} {after : Cpu}
    (h : c.load bytes origin entry = .ok after) :
    c.control.state = .stopped ∧ ∃ machine,
      after = { c with machine, control := { c.control with lastStop := none } } := by
  unfold load at h
  split at h
  case h_1 hstate =>
    split at h
    case h_1 machine _ =>
      cases h
      exact ⟨hstate, machine, rfl⟩
    case h_2 => cases h
  case h_2 => cases h

/-- Lets the `i`th loop do its next phase. Where there is no such loop, nothing happens. -/
def loopAct (c : Cpu) (i : Nat) : Cpu × List Note :=
  match c.loops[i]? with
  | none => (c, [])
  | some phase =>
    match runPhase phase c with
    | (next, after, events) =>
      ({ after with loops := c.loops.take i ++ next.toList ++ c.loops.drop (i + 1) },
        phase.notes c.machine ++ events.map (.told · after.machine))

theorem loopAct_eq {i : Nat} {phase : Phase} (h : c.loops[i]? = some phase) :
    c.loopAct i =
      ({ (runPhase phase c).2.1 with
          loops := c.loops.take i ++ (runPhase phase c).1.toList ++ c.loops.drop (i + 1) },
        phase.notes c.machine ++
          (runPhase phase c).2.2.map (.told · (runPhase phase c).2.1.machine)) := by
  rw [loopAct, h]

def act (c : Cpu) : Action → Cpu × List Note
  | .host h => c.hostAct h
  | .loop i => c.loopAct i

/-- Follows a schedule. -/
def follow : List Action → Cpu → Cpu × List Note
  | [], c => (c, [])
  | a :: rest, c =>
    let (c, notes) := c.act a
    let (c, later) := follow rest c
    (c, notes ++ later)

theorem follow_append (first second : List Action) (c : Cpu) :
    follow (first ++ second) c =
      ((follow second (follow first c).1).1,
        (follow first c).2 ++ (follow second (follow first c).1).2) := by
  induction first generalizing c with
  | nil => rfl
  | cons a rest ih => simp only [List.cons_append, follow, ih, List.append_assoc]

/-- What holds of a processor and its notes, and stays so whatever is done next, holds after every
schedule. -/
theorem follow_induction (P : Cpu → List Note → Prop) (allowed : Action → Prop)
    (step : ∀ c notes a, allowed a → P c notes → P (c.act a).1 (notes ++ (c.act a).2))
    (notes : List Note) (h : P c notes) (schedule : List Action) (ha : ∀ a ∈ schedule, allowed a) :
    P (follow schedule c).1 (notes ++ (follow schedule c).2) := by
  induction schedule generalizing c notes with
  | nil => simpa [follow] using h
  | cons a rest ih =>
      have hnext := step c notes a (ha a List.mem_cons_self) h
      have hrest := ih _ hnext fun b hb => ha b (List.mem_cons_of_mem a hb)
      simpa only [follow, List.append_assoc] using hrest

/-- What an observer makes of notes. -/
def hear (o : Observer σ) (notes : List Note) (s : σ) : σ :=
  notes.foldl (fun s note =>
    match note with
    | .told e m => (o.tell e m s).1
    | _ => s) s

theorem hear_append (o : Observer σ) (first second : List Note) (s : σ) :
    hear o (first ++ second) s = hear o second (hear o first s) :=
  List.foldl_append ..

theorem hear_notes (o : Observer σ) (phase : Phase) (m : Machine) (s : σ) :
    hear o (phase.notes m) s = s := by
  cases phase <;> rfl

/-- Advancing a processor is a phase of its first loop. -/
theorem advance_eq_some {events : List Event} {after : Cpu} (h : c.advance = some (after, events)) :
    (c.act (.loop 0)).1 = after ∧
      ∃ phase : Phase, (c.act (.loop 0)).2 =
        phase.notes c.machine ++ events.map (.told · after.machine) := by
  obtain ⟨machine, breakpoints, control, _ | ⟨phase, others⟩⟩ := c
  · cases h
  · simp only [advance] at h
    split at h
    · cases h
    · rw [runPhase_loops phase ⟨machine, breakpoints, control, phase :: others⟩ others] at h
      cases h
      exact ⟨rfl, phase, rfl⟩

def Request.action : Request → Action
  | .pause => .host .pause
  | .stop => .host .stop

theorem follow_requests (requests : List Request) (c : Cpu) :
    follow (requests.map Request.action) c = (requests.foldl grant c, []) := by
  induction requests generalizing c with
  | nil => rfl
  | cons r rest ih =>
      cases r with
      | pause => exact ih c.pause
      | stop => exact ih c.stop

theorem machine_grants (requests : List Request) (c : Cpu) :
    (requests.foldl grant c).machine = c.machine := by
  induction requests generalizing c with
  | nil => rfl
  | cons r rest ih =>
      rw [List.foldl_cons, ih]
      cases r <;> rfl

/-- What an observer asks for while it is told of events, hosts can do in its place. -/
theorem tellAll_eq_follow (o : Observer σ) (events : List Event) (c : Cpu) (s : σ) :
    ∃ requests : List Request,
      o.tellAll events c s =
        ((follow (requests.map Request.action) c).1,
          hear o (events.map (.told · c.machine)) s) := by
  induction events generalizing c s with
  | nil => exact ⟨[], rfl⟩
  | cons e rest ih =>
      obtain ⟨requests, hrest⟩ :=
        ih ((o.tell e c.machine s).2.foldl grant c) (o.tell e c.machine s).1
      refine ⟨(o.tell e c.machine s).2 ++ requests, ?_⟩
      -- What is asked for leaves the machine, so the next event shows the same one.
      rw [machine_grants] at hrest
      simp only [Observer.tellAll, hrest, follow_requests, List.foldl_append]
      rfl

/-- A run that an observer watches follows a schedule of the loop's phases and of what the observer
asks for, and the observer makes of it what it makes of the notes. -/
theorem settle_eq_follow (o : Observer σ) (bound : Nat) (c : Cpu) (s : σ) :
    ∃ schedule : List Action, (∀ a ∈ schedule, a.isQuiet) ∧
      settle o bound c s = ((follow schedule c).1, hear o (follow schedule c).2 s) := by
  induction bound generalizing c s with
  | zero => exact ⟨[], by simp, rfl⟩
  | succ bound ih =>
      rw [settle]
      split
      · exact ⟨[], by simp, rfl⟩
      · cases hadvance : c.advance with
        | none => exact ⟨[], by simp, rfl⟩
        | some next =>
            obtain ⟨after, events⟩ := next
            obtain ⟨hafter, phase, hnotes⟩ := advance_eq_some hadvance
            obtain ⟨requests, htold⟩ := tellAll_eq_follow o events after s
            obtain ⟨schedule, hquiet, hrest⟩ := ih (follow (requests.map Request.action) after).1
              (hear o (events.map (.told · after.machine)) s)
            refine ⟨.loop 0 :: (requests.map Request.action ++ schedule), ?_, ?_⟩
            · intro a ha
              rcases List.mem_cons.mp ha with rfl | ha
              · rfl
              · rcases List.mem_append.mp ha with ha | ha
                · obtain ⟨r, -, rfl⟩ := List.mem_map.mp ha
                  cases r <;> rfl
                · exact hquiet a ha
            · simp only [follow, hafter, follow_append, hnotes, htold, hrest, hear_append,
                hear_notes]
              rw [follow_requests]
              rfl

end Cpu

end B33
