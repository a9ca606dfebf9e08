import B33.Proofs.Cpu.Moment

/-!
# Breakpoints hold

Where a processor arrives at an armed breakpoint, its loop pauses or ends before the instruction
there, and only a start lets that instruction be executed. Between the arrival and the pause hosts
can do what they like, for the loop looks for a breakpoint after each instruction and pauses in one
turn, unless it was asked to stop and ends. Observers are told of a breakpoint after such a turn,
and never without one.
-/
namespace B33

def Note.isLoaded : Note → Bool
  | .loaded => true
  | _ => false

namespace Moment

/-- What observers are told of. -/
def events (x : Moment) : List Event := x.notes.filterMap Note.event?

def loads (x : Moment) : Bool := x.notes.any Note.isLoaded

/-- The next instruction comes to be the one at an address. It can have been before, where an
instruction has jumped to itself or a program is loaded anew. -/
def ArrivesAt (x : Moment) (address : UInt16) : Prop :=
  x.next.machine.registers.pc = address ∧
    (x.cpu.machine.registers.pc ≠ address ∨ x.executes = true ∨ x.loads = true)

def arms (x : Moment) (address : UInt16) : Bool :=
  x.cpu.breakpoints.contains ⟨.execution, address⟩

/-- The loop pauses at a breakpoint, in one turn, as nobody has asked it to stop, and executes
nothing more before a start takes effect. -/
structure PausesAt (x : Moment) (b : Breakpoint) : Prop where
  phase : x.phase? = some (.hitting b)
  stopRequested : x.cpu.control.stopRequested = false
  paused : x.next.control.state = .paused
  held : ∀ (later : List Action) (execution : Action),
    executes ⟨(Cpu.follow later x.next).1, execution⟩ = true →
      ∃ y ∈ Cpu.moments later x.next, y.starts = true

end Moment

/-- A program that is loaded begins no run, and nothing else that hosts do changes registers. -/
theorem Cpu.hostAct_loads (c : Cpu) (h : HostAction) :
    ((c.hostAct h).2.any Note.isLoaded = true ∧ (c.hostAct h).1.control.state = .stopped) ∨
      ((c.hostAct h).2.any Note.isLoaded = false ∧
        (c.hostAct h).1.machine.registers = c.machine.registers) := by
  cases h with
  | start spawned =>
      apply Or.inr
      by_cases hstate : c.control.state = .stopped
      · rw [hostAct_start_of_stopped hstate]
        cases spawned <;> exact ⟨rfl, rfl⟩
      · rw [hostAct_start_of_running hstate]
        exact ⟨rfl, rfl⟩
  | load bytes origin entry =>
      rw [hostAct]
      cases hload : c.load bytes origin entry with
      | error e => exact .inr ⟨rfl, rfl⟩
      | ok after =>
          obtain ⟨hstate, machine, rfl⟩ := load_eq_ok hload
          exact .inl ⟨rfl, hstate⟩
  | pause | stop | addBreakpoint | removeBreakpoint | clearBreakpoints | onBus =>
      exact .inr ⟨rfl, rfl⟩

namespace Moment

variable {x : Moment}

/-- Registers stay as they are unless an instruction is executed or a program is loaded. -/
theorem registers_next (hgoverns : x.cpu.control.Governs x.cpu.loops) (hexec : x.executes = false)
    (hloads : x.loads = false) : x.next.machine.registers = x.cpu.machine.registers := by
  cases hphase : x.phase? with
  | none =>
      obtain ⟨c, h | i⟩ := x
      · obtain ⟨hloaded, -⟩ | ⟨-, hregisters⟩ := c.hostAct_loads h
        · exact absurd (hloads.symm.trans hloaded) Bool.false_ne_true
        · exact hregisters
      · rw [(next_of_no_phase rfl hphase).1]
  | some phase =>
      have hother : phase ≠ .executing := by
        rintro rfl
        rw [(executes_iff hgoverns).mpr hphase] at hexec
        cases hexec
      rw [(next_of_phase hgoverns hphase).2.1]
      dsimp only
      rw [Cpu.machine_runPhase]
      cases phase with
      | executing => exact absurd rfl hother
      | turn | announcing | checking | hitting | reporting | resting | finishing | closing => rfl

/-- A program is loaded where there is no run, and begins none. -/
theorem stopped_of_loads (hgoverns : x.cpu.control.Governs x.cpu.loops) (hloads : x.loads = true) :
    x.next.control.state = .stopped := by
  obtain ⟨c, h | i⟩ := x
  · obtain ⟨-, hstate⟩ | ⟨hnone, -⟩ := c.hostAct_loads h
    · exact hstate
    · exact absurd (hnone.symm.trans hloads) Bool.false_ne_true
  · -- No phase of a loop is noted as a load.
    obtain ⟨note, hnote, hloaded⟩ := List.any_eq_true.mp hloads
    obtain ⟨h, haction, -⟩ | ⟨phase, -, hnote | ⟨e, -, rfl⟩⟩ := mem_notes hgoverns hnote
    · cases haction
    · obtain ⟨outcome, rfl⟩ | ⟨reason, rfl⟩ := Phase.mem_notes hnote <;> cases hloaded
    · cases hloaded

/-- At an arrival an instruction is executed or a program is loaded. -/
theorem ArrivesAt.cause {address : UInt16} (hgoverns : x.cpu.control.Governs x.cpu.loops)
    (h : x.ArrivesAt address) : x.executes = true ∨ x.loads = true := by
  obtain ⟨hafter, hbefore | hcause⟩ := h
  · cases hexec : x.executes with
    | true => exact .inl rfl
    | false =>
        cases hloads : x.loads with
        | true => exact .inr rfl
        | false => exact absurd (registers_next hgoverns hexec hloads ▸ hafter) hbefore
  · exact hcause

end Moment

namespace Cpu

/-- Nothing is due, and the record lets nothing become due. -/
structure Held (c : Cpu) : Prop where
  holds : c.control.Holds
  due : c.total Phase.due = 0

/-- The ways in which a loop does not come to execute the instruction at an armed address. -/
inductive Barred (address : UInt16) (c : Cpu) : Prop
  | held (h : c.Held)
  | arrived (s : Step) (hloops : c.loops = [.checking s])
      (hpc : c.machine.registers.pc = address)
  | met (b : Breakpoint) (hloops : c.loops = [.hitting b])
  | finishing (reason : StopReason) (hloops : c.loops = [.finishing reason])
  | closing (reason : StopReason) (hloops : c.loops = [.closing reason])

variable {c : Cpu} {address : UInt16}

theorem held_of_stopped (hgoverns : c.control.Governs c.loops)
    (hstate : c.control.state = .stopped) : c.Held where
  holds := .inr (by simp [hstate])
  due := by simp [total, (hgoverns.of_stopped hstate).1]

theorem Barred.due (h : c.Barred address) : c.total Phase.due = 0 := by
  cases h with
  | held h => exact h.due
  | arrived s hloops | met b hloops | finishing reason hloops | closing reason hloops =>
      exact total_of_loops Phase.due hloops

end Cpu

namespace Moment

variable {x : Moment} {address : UInt16}

theorem executes_of_due (hgoverns : x.cpu.control.Governs x.cpu.loops)
    (hdue : x.cpu.total Phase.due = 0) : x.executes = false := by
  apply eq_false_of_ne_true
  intro hexec
  have hphase := (executes_iff hgoverns).mp hexec
  rw [Cpu.total_of_loops Phase.due (next_of_phase hgoverns hphase).1] at hdue
  cases hdue

theorem held_next (hgoverns : x.cpu.control.Governs x.cpu.loops) (hstart : x.starts = false)
    (h : x.cpu.Held) : x.next.Held where
  holds := holds_next hgoverns h.holds hstart
  due := by
    have hdue := due_next hgoverns h.holds
    rw [h.due] at hdue
    omega

/-- A loop does its phase, or stays where it is with the registers as they are. -/
theorem phase_or_stays (hgoverns : x.cpu.control.Governs x.cpu.loops) {phase : Phase}
    (hloops : x.cpu.loops = [phase]) :
    x.phase? = some phase ∨
      x.next.loops = [phase] ∧ x.next.machine.registers = x.cpu.machine.registers := by
  obtain ⟨c, h | i⟩ := x
  · have hstate : c.control.state ≠ .stopped := by
      intro hstate
      rw [(hgoverns.of_stopped hstate).1] at hloops
      cases hloops
    obtain ⟨hsame, hregisters, -⟩ := Cpu.hostAct_of_running hstate h
    exact .inr ⟨hsame.trans hloops, hregisters⟩
  · cases hphase : phase? ⟨c, .loop i⟩ with
    | none =>
        rw [(next_of_no_phase rfl hphase).1]
        exact .inr ⟨hloops, rfl⟩
    | some next =>
        have honly := (next_of_phase hgoverns hphase).1
        rw [hloops] at honly
        cases honly
        exact .inl rfl

theorem held_of_hitting (hgoverns : x.cpu.control.Governs x.cpu.loops) {b : Breakpoint}
    (hphase : x.phase? = some (.hitting b)) : x.next.Held := by
  obtain ⟨-, hnext, -⟩ := next_of_phase hgoverns hphase
  rw [hnext, Cpu.runPhase_hitting]
  by_cases hstop : x.cpu.control.stopRequested
  · rw [if_pos hstop]
    exact ⟨.inl hstop, rfl⟩
  · rw [if_neg hstop]
    exact ⟨.inr nofun, rfl⟩

/-- As long as the address is armed and nothing starts it, a loop that is held back stays so. -/
theorem barred_next (hgoverns : x.cpu.control.Governs x.cpu.loops) (harms : x.arms address = true)
    (hstart : x.starts = false) (h : x.cpu.Barred address) : x.next.Barred address := by
  cases h with
  | held h => exact .held (held_next hgoverns hstart h)
  | arrived s hloops hpc =>
      obtain hphase | ⟨hsame, hregisters⟩ := phase_or_stays hgoverns hloops
      · -- Only here it matters that the address is still armed.
        obtain ⟨-, hnext, -⟩ := next_of_phase hgoverns hphase
        have hcheck : x.cpu.breakpoints.check x.cpu.machine.registers.pc s.store =
            some ⟨.execution, address⟩ := by
          rw [hpc, Breakpoints.check]
          exact if_pos harms
        rw [Cpu.runPhase_checking, hcheck] at hnext
        exact .met ⟨.execution, address⟩ (congrArg Cpu.loops hnext)
      · exact .arrived s hsame (hregisters ▸ hpc)
  | met b hloops =>
      obtain hphase | ⟨hsame, -⟩ := phase_or_stays hgoverns hloops
      · exact .held (held_of_hitting hgoverns hphase)
      · exact .met b hsame
  | finishing reason hloops =>
      obtain hphase | ⟨hsame, -⟩ := phase_or_stays hgoverns hloops
      · exact .closing reason (congrArg Cpu.loops (next_of_phase hgoverns hphase).2.1)
      · exact .finishing reason hsame
  | closing reason hloops =>
      obtain hphase | ⟨hsame, -⟩ := phase_or_stays hgoverns hloops
      · have hcontrol := congrArg Cpu.control (next_of_phase hgoverns hphase).2.1
        rw [Cpu.runPhase_closing] at hcontrol
        exact .held (Cpu.held_of_stopped (governs_next hgoverns) (congrArg Control.state hcontrol))
      · exact .closing reason hsame

/-- A loop that arrives at an address looks for a breakpoint there, unless its run is over. -/
theorem barred_of_arrives (hgoverns : x.cpu.control.Governs x.cpu.loops)
    (h : x.ArrivesAt address) : x.next.Barred address := by
  obtain hexec | hloads := h.cause hgoverns
  · have hphase := (executes_iff hgoverns).mp hexec
    have hloops := congrArg Cpu.loops (next_of_phase hgoverns hphase).2.1
    rw [Cpu.runPhase_executing] at hloops
    change x.next.loops = [Cpu.afterStep x.cpu.machine.step.1] at hloops
    cases hstep : x.cpu.machine.step.1 with
    | error f =>
        rw [hstep] at hloops
        exact .finishing (.fault f) hloops
    | ok s =>
        rw [hstep, Cpu.afterStep] at hloops
        split at hloops
        · exact .finishing .halted hloops
        · exact .arrived s hloops h.1
  · exact .held (Cpu.held_of_stopped (governs_next hgoverns) (stopped_of_loads hgoverns hloads))

end Moment

namespace Cpu

variable {c : Cpu} {address : UInt16}

/-- Where something keeps the loop from executing until a start takes effect, an execution has a
start before it. -/
theorem exists_starts (P : Cpu → Prop) (hgoverns : c.control.Governs c.loops)
    {between : List Action} (hdue : ∀ c, P c → c.total Phase.due = 0)
    (hkept : ∀ x ∈ moments between c, x.starts = false → P x.cpu → P x.next)
    (h : P c) {execution : Action}
    (hexec : Moment.executes ⟨(follow between c).1, execution⟩ = true) :
    ∃ x ∈ moments between c, x.starts = true := by
  by_cases hstart : ∃ x ∈ moments between c, x.starts = true
  · exact hstart
  · have hlast : P (follow between c).1 := by
      refine (moments_induction P h ?_).2
      intro x hx
      exact hkept x hx (eq_false_of_ne_true fun htrue => hstart ⟨x, hx, htrue⟩)
    have hnone := Moment.executes_of_due (x := ⟨(follow between c).1, execution⟩)
      (governs_follow hgoverns between) (hdue _ hlast)
    rw [hnone] at hexec
    cases hexec

theorem exists_starts_of_held (hgoverns : c.control.Governs c.loops) (h : c.Held)
    {between : List Action} {execution : Action}
    (hexec : Moment.executes ⟨(follow between c).1, execution⟩ = true) :
    ∃ x ∈ moments between c, x.starts = true := by
  refine exists_starts Held hgoverns (fun _ => Held.due) ?_ h hexec
  intro x hx
  exact Moment.held_next (governs_moments hgoverns between x hx)

end Cpu

namespace Cpu

variable {c : Cpu} {phase : Phase} {b : Breakpoint}

theorem hit_not_mem_outcomeEvents (before after : RegisterFile) (b : Breakpoint)
    (outcome : Except Fault Step) : .hit b ∉ outcomeEvents before after outcome := by
  cases outcome with
  | error f => exact List.not_mem_nil
  | ok s =>
      rw [outcomeEvents, Step.events, List.mem_append]
      rintro (hstore | hchange)
      · cases hstored : s.store <;> simp [hstored] at hstore
      · split at hchange <;> simp at hchange

/-- One phase tells of breakpoints. -/
theorem reporting_of_hit (h : .hit b ∈ (runPhase phase c).2.2) : phase = .reporting b := by
  cases phase with
  | reporting other =>
      cases List.mem_singleton.mp h
      rfl
  | executing =>
      rw [runPhase_executing] at h
      dsimp only at h
      exact absurd h (hit_not_mem_outcomeEvents _ _ b _)
  | checking s =>
      rw [runPhase_checking] at h
      cases h
  | hitting other =>
      rw [runPhase_hitting] at h
      split at h <;> exact absurd h List.not_mem_nil
  | announcing | finishing => cases List.mem_singleton.mp h
  | turn | resting | closing => cases h

/-- A loop tells of a breakpoint after it has paused there, which no request to stop prevents. -/
theorem hitting_of_reporting (h : (runPhase phase c).1 = some (.reporting b)) :
    phase = .hitting b ∧ c.control.stopRequested = false := by
  cases phase with
  | hitting other =>
      rw [runPhase_hitting] at h
      split at h
      · cases h
      · next hstop =>
        cases h
        exact ⟨rfl, eq_false_of_ne_true hstop⟩
  | turn =>
      have hturn : takeTurn c.control = .reporting b := Option.some.inj h
      unfold takeTurn at hturn
      split at hturn
      · cases hturn
      · cases hstate : c.control.state <;> simp [hstate] at hturn
  | executing =>
      rw [runPhase_executing] at h
      have hstep : afterStep c.machine.step.1 = .reporting b := Option.some.inj h
      cases houtcome : c.machine.step.1 with
      | error f => simp [houtcome, afterStep] at hstep
      | ok s => cases hhalted : s.halted <;> simp [houtcome, afterStep, hhalted] at hstep
  | checking s =>
      rw [runPhase_checking] at h
      cases hcheck : c.breakpoints.check c.machine.registers.pc s.store <;> simp [hcheck] at h
  | announcing | reporting | resting | finishing | closing => cases h

end Cpu

namespace Moment

variable {x : Moment} {b : Breakpoint}

theorem phase_of_hit (hgoverns : x.cpu.control.Governs x.cpu.loops) (h : .hit b ∈ x.events) :
    x.phase? = some (.reporting b) := by
  obtain ⟨note, hnote, htold⟩ := List.mem_filterMap.mp h
  cases note with
  | began | refused | loaded | executed | ended => cases htold
  | told e m =>
      cases htold
      obtain ⟨-, -, hhost⟩ | ⟨phase, hphase, hnote | ⟨e, he, hsame⟩⟩ := mem_notes hgoverns hnote
      · cases hhost
      · obtain ⟨outcome, htold⟩ | ⟨reason, htold⟩ := Phase.mem_notes hnote <;> cases htold
      · cases hsame
        rw [hphase, Cpu.reporting_of_hit he]

/-- A loop that is about to tell of a breakpoint was so before, or pauses there now. -/
theorem pauses_of_reporting (hgoverns : x.cpu.control.Governs x.cpu.loops)
    (h : x.next.loops = [.reporting b]) :
    x.cpu.loops = [.reporting b] ∧ x.phase? = none ∨ x.PausesAt b := by
  cases hphase : x.phase? with
  | none =>
      refine .inl ⟨?_, rfl⟩
      obtain ⟨c, host | i⟩ := x
      · obtain hloops | ⟨hstate, hloops, -⟩ := c.loops_hostAct host
        · exact hloops.symm.trans h
        · have hnone : c.loops = [] := (hgoverns.of_stopped hstate).1
          rw [hnone] at hloops
          cases hloops.symm.trans h
      · rw [(next_of_no_phase rfl hphase).1] at h
        exact h
  | some phase =>
      obtain ⟨-, hnext, -⟩ := next_of_phase hgoverns hphase
      have hreporting : (Cpu.runPhase phase x.cpu).1 = some (.reporting b) := by
        rw [hnext] at h
        exact Option.toList_eq_singleton_iff.mp h
      obtain ⟨rfl, hstop⟩ := Cpu.hitting_of_reporting hreporting
      refine .inr ⟨hphase, hstop, ?_, fun later execution => ?_⟩
      · rw [hnext, Cpu.runPhase_hitting, hstop]
        rfl
      · exact Cpu.exists_starts_of_held (governs_next hgoverns) (held_of_hitting hgoverns hphase)

end Moment

namespace Cpu

variable {c : Cpu}

/-- A loop that is about to tell of a breakpoint has paused there before, and has done nothing
since. -/
theorem exists_pause (hgoverns : c.control.Governs c.loops) {b : Breakpoint}
    {schedule : List Action} (h : (follow schedule c).1.loops = [.reporting b]) :
    c.loops = [.reporting b] ∧ (∀ x ∈ moments schedule c, x.phase? = none) ∨
      ∃ (before : List Action) (turn : Action) (between : List Action),
        schedule = before ++ turn :: between ∧
        Moment.PausesAt ⟨(follow before c).1, turn⟩ b ∧
        ∀ x ∈ moments between ((follow before c).1.act turn).1, x.phase? = none := by
  induction schedule generalizing c with
  | nil => exact .inl ⟨h, fun _ hx => absurd hx List.not_mem_nil⟩
  | cons a rest ih =>
      obtain ⟨hloops, hnone⟩ | ⟨before, turn, between, hrest, hpauses, hnone⟩ :=
        ih (Moment.governs_next (x := ⟨c, a⟩) hgoverns) h
      · obtain ⟨hbefore, hfirst⟩ | hpauses :=
          Moment.pauses_of_reporting (x := ⟨c, a⟩) hgoverns hloops
        · apply Or.inl
          rw [moments, List.forall_mem_cons]
          exact ⟨hbefore, hfirst, hnone⟩
        · exact .inr ⟨[], a, rest, rfl, hpauses, hnone⟩
      · exact .inr ⟨a :: before, turn, between, congrArg (a :: ·) hrest, hpauses, hnone⟩

/-- No armed breakpoint is run through. Once an arrival has come to an armed address, nothing is
executed there before a start takes effect, as long as the address stays armed, and before the first
start nothing is executed at all. Observers are told of a breakpoint only after the loop has paused
there, in the turn in which it saw that nobody had asked it to stop. -/
theorem breakpoints_hold (m : Machine) (breakpoints : Breakpoints) (earlier : List Action) :
    let start : Cpu := { machine := m, breakpoints }
    let c := (follow earlier start).1
    (∀ (address : UInt16) (arrival : Action) (between : List Action) (execution : Action),
      Moment.ArrivesAt ⟨c, arrival⟩ address →
      (∀ x ∈ moments (arrival :: between) c, x.arms address = true) →
      Moment.executes ⟨(follow (arrival :: between) c).1, execution⟩ = true →
      ∃ x ∈ moments between (c.act arrival).1, x.starts = true) ∧
    (∀ execution : Action, Moment.executes ⟨c, execution⟩ = true →
      ∃ x ∈ moments earlier start, x.starts = true) ∧
    (∀ (b : Breakpoint) (report : Action), .hit b ∈ Moment.events ⟨c, report⟩ →
      ∃ (before : List Action) (turn : Action) (between : List Action),
        earlier = before ++ turn :: between ∧
        Moment.PausesAt ⟨(follow before start).1, turn⟩ b ∧
        ∀ x ∈ moments between ((follow before start).1.act turn).1, x.phase? = none) := by
  intro start c
  have hstart : start.control.Governs start.loops := .resting rfl rfl
  have hgoverns : c.control.Governs c.loops := governs_follow hstart earlier
  refine ⟨?_, ?_, ?_⟩
  · intro address arrival between execution harrives harms hexec
    rw [moments, List.forall_mem_cons] at harms
    have hnext := Moment.governs_next (x := ⟨c, arrival⟩) hgoverns
    refine exists_starts (Barred address) hnext (fun _ => Barred.due) ?_
      (Moment.barred_of_arrives hgoverns harrives) hexec
    intro x hx
    exact Moment.barred_next (governs_moments hnext between x hx) (harms.2 x hx)
  · intro execution hexec
    exact exists_starts_of_held hstart (held_of_stopped hstart rfl) hexec
  · intro b report hhit
    have hloops := (Moment.next_of_phase hgoverns (Moment.phase_of_hit hgoverns hhit)).1
    obtain ⟨hnone, -⟩ | hpause := exists_pause hstart hloops
    · cases hnone
    · exact hpause

/-- A breakpoint at the `HLT` of a program holds the processor there until it is started again, and
observers are told of it after the pause. -/
theorem holds_before_halt :
    let m : Machine := { bus := ({} : Bus).pokeAll 0 [0x10, 99, 0x01] }
    let start : Cpu := { machine := m, breakpoints := { execution := [2] } }
    let earlier : List Action := [.host (.start true), .loop 0, .loop 0]
    let c := (follow earlier start).1
    let pausing : List Action := [.loop 0, .loop 0]
    let between : List Action := pausing ++
      [.loop 0, .loop 0, .host (.start true), .loop 0, .loop 0]
    Moment.ArrivesAt ⟨c, .loop 0⟩ 2 ∧
      (∀ x ∈ moments (.loop 0 :: between) c, x.arms 2 = true) ∧
      Moment.executes ⟨(follow (.loop 0 :: between) c).1, .loop 0⟩ = true ∧
      (∃ x ∈ moments between (c.act (.loop 0)).1, x.starts = true) ∧
      ∃ (before : List Action) (turn : Action) (rest : List Action),
        earlier ++ .loop 0 :: pausing = before ++ turn :: rest ∧
        Moment.PausesAt ⟨(follow before start).1, turn⟩ ⟨.execution, 2⟩ := by
  intro m start earlier c pausing between
  have harrives : Moment.ArrivesAt ⟨c, .loop 0⟩ 2 :=
    ⟨by decide +kernel, .inl (by decide +kernel)⟩
  have harms : ∀ x ∈ moments (.loop 0 :: between) c, x.arms 2 = true := by decide +kernel
  have hexec : Moment.executes ⟨(follow (.loop 0 :: between) c).1, .loop 0⟩ = true := by
    decide +kernel
  refine ⟨harrives, harms, hexec, ?_, ?_⟩
  · exact (breakpoints_hold m { execution := [2] } earlier).1 2 (.loop 0) between (.loop 0)
      harrives harms hexec
  · obtain ⟨before, turn, rest, hsplit, hpauses, -⟩ :=
      (breakpoints_hold m { execution := [2] } (earlier ++ .loop 0 :: pausing)).2.2
        ⟨.execution, 2⟩ (.loop 0) (by decide +kernel)
    exact ⟨before, turn, rest, hsplit, hpauses⟩

end Cpu

end B33
