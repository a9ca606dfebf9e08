import B33.Proofs.Cpu.Schedule

/-!
# The control record and the loop

The control record knows of the loop. A loop is there exactly while the state is not stopped, there
is never a second one, and nothing about an earlier run is left when a new one begins. This is so
after every schedule, since no action of a host and no phase of the loop undoes it.
-/
namespace B33

/-- The ways in which the state of a processor can change. -/
inductive RunState.Leads : RunState → RunState → Prop
  | begin : Leads .stopped .running
  | pause : Leads .running .paused
  | resume : Leads .paused .running
  | finish : Leads .running .stopped
  | abandon : Leads .paused .stopped

/-- How a control record goes with the loops there are. -/
inductive Control.Governs (k : Control) : List Phase → Prop
  | resting (hstate : k.state = .stopped) (hstop : k.stopRequested = false) : Governs k []
  | running (phase : Phase) (hstate : k.state ≠ .stopped) (hlast : k.lastStop = none) :
      Governs k [phase]

namespace Control.Governs

variable {k after : Control} {loops : List Phase}

theorem of_stopped (h : k.Governs loops) (hstate : k.state = .stopped) :
    loops = [] ∧ k.stopRequested = false := by
  cases h with
  | resting _ hstop => exact ⟨rfl, hstop⟩
  | running phase hrunning => exact absurd hstate hrunning

theorem of_running (h : k.Governs loops) (hstate : k.state ≠ .stopped) :
    (∃ phase, loops = [phase]) ∧ k.lastStop = none := by
  cases h with
  | resting hstopped => exact absurd hstopped hstate
  | running phase _ hlast => exact ⟨⟨phase, rfl⟩, hlast⟩

/-- A loop that does a phase is the only one, and the record is not stopped. -/
theorem of_getElem? (h : k.Governs loops) {i : Nat} {phase : Phase}
    (hphase : loops[i]? = some phase) :
    i = 0 ∧ loops = [phase] ∧ k.state ≠ .stopped ∧ k.lastStop = none := by
  cases h with
  | resting => simp at hphase
  | running only hstate hlast =>
      cases i with
      | zero =>
          cases hphase
          exact ⟨rfl, rfl, hstate, hlast⟩
      | succ i => simp at hphase

/-- A record that changes without stopping a run or beginning one still goes with the loops. -/
theorem kept (h : k.Governs loops) (hbefore : k.state ≠ .stopped) (hafter : after.state ≠ .stopped)
    (hlast : after.lastStop = k.lastStop) : after.Governs loops := by
  obtain ⟨⟨phase, rfl⟩, hnone⟩ := h.of_running hbefore
  exact .running phase hafter (hlast.trans hnone)

end Control.Governs

namespace Cpu

variable {c : Cpu}

/-- What one action can do to the control record and the loops. -/
inductive Moves (c : Cpu) : Control → List Phase → Prop
  | stay : Moves c c.control c.loops
  | begin (hstate : c.control.state = .stopped) : Moves c .begun (c.loops ++ [.turn])
  | refuse (hstate : c.control.state = .stopped) : Moves c {} c.loops
  | load (hstate : c.control.state = .stopped) :
      Moves c { c.control with lastStop := none } c.loops
  | resume (hstate : c.control.state = .paused) :
      Moves c { c.control with state := .running } c.loops
  | pause (hstate : c.control.state = .running) :
      Moves c { c.control with state := .paused } c.loops
  | ask (hstate : c.control.state ≠ .stopped) :
      Moves c { c.control with stopRequested := true } c.loops
  | go (i : Nat) (phase next : Phase) (hphase : c.loops[i]? = some phase) :
      Moves c c.control (c.loops.take i ++ [next] ++ c.loops.drop (i + 1))
  | hit (i : Nat) (b : Breakpoint) (hphase : c.loops[i]? = some (.hitting b)) :
      Moves c { c.control with state := .paused }
        (c.loops.take i ++ [.reporting b] ++ c.loops.drop (i + 1))
  | close (i : Nat) (reason : StopReason) (hphase : c.loops[i]? = some (.closing reason)) :
      Moves c (.ended reason) (c.loops.take i ++ c.loops.drop (i + 1))

theorem moves_hostAct (c : Cpu) (h : HostAction) :
    c.Moves (c.hostAct h).1.control (c.hostAct h).1.loops := by
  cases h with
  | start spawned =>
      by_cases hstate : c.control.state = .stopped
      · rw [hostAct_start_of_stopped hstate]
        cases spawned with
        | true => exact .begin hstate
        | false => exact .refuse hstate
      · rw [hostAct_start_of_running hstate, Control.resume]
        split
        case h_1 hpaused => exact .resume hpaused
        case h_2 => exact .stay
  | pause =>
      rw [hostAct, Cpu.pause, Control.pause]
      split
      case h_1 hstate => exact .pause hstate
      case h_2 => exact .stay
  | stop =>
      rw [hostAct, Cpu.stop, Control.requestStop]
      split
      case h_1 => exact .stay
      case h_2 hstate => exact .ask hstate
  | load bytes origin entry =>
      rw [hostAct]
      cases hload : c.load bytes origin entry with
      | error e => exact .stay
      | ok after =>
          obtain ⟨hstate, machine, rfl⟩ := load_eq_ok hload
          exact .load hstate
  | addBreakpoint | removeBreakpoint | clearBreakpoints | onBus => exact .stay

theorem moves_loopAct (c : Cpu) (i : Nat) :
    c.Moves (c.loopAct i).1.control (c.loopAct i).1.loops := by
  cases hphase : c.loops[i]? with
  | none =>
      rw [loopAct, hphase]
      exact .stay
  | some phase =>
      rw [loopAct_eq hphase]
      cases phase with
      | turn | announcing | reporting | resting | finishing => exact .go i _ _ hphase
      | executing =>
          rw [runPhase_executing]
          exact .go i _ _ hphase
      | checking s =>
          rw [runPhase_checking]
          exact .go i _ _ hphase
      | hitting b =>
          rw [runPhase_hitting]
          split
          · exact .go i _ _ hphase
          · exact .hit i b hphase
      | closing reason =>
          rw [runPhase_closing, Option.toList_none, List.append_nil]
          exact .close i reason hphase

theorem moves_act (c : Cpu) (a : Action) : c.Moves (c.act a).1.control (c.act a).1.loops := by
  cases a with
  | host h => exact c.moves_hostAct h
  | loop i => exact c.moves_loopAct i

/-- No action puts the record out of step with the loops. -/
theorem governs_of_moves {k : Control} {loops : List Phase} (hmove : c.Moves k loops)
    (h : c.control.Governs c.loops) : k.Governs loops := by
  cases hmove with
  | stay => exact h
  | begin hstate =>
      rw [(h.of_stopped hstate).1]
      exact .running .turn nofun rfl
  | refuse hstate =>
      rw [(h.of_stopped hstate).1]
      exact .resting rfl rfl
  | load hstate =>
      rw [(h.of_stopped hstate).1]
      exact .resting hstate (h.of_stopped hstate).2
  | resume hstate => exact h.kept (by simp [hstate]) nofun rfl
  | pause hstate => exact h.kept (by simp [hstate]) nofun rfl
  | ask hstate => exact h.kept hstate hstate rfl
  | go i phase next hphase =>
      obtain ⟨rfl, hloops, hstate, hlast⟩ := h.of_getElem? hphase
      rw [hloops]
      exact .running next hstate hlast
  | hit i b hphase =>
      obtain ⟨rfl, hloops, -, hlast⟩ := h.of_getElem? hphase
      rw [hloops]
      exact .running (.reporting b) nofun hlast
  | close i reason hphase =>
      obtain ⟨rfl, hloops, -, -⟩ := h.of_getElem? hphase
      rw [hloops]
      exact .resting rfl rfl

/-- An action leads from a state to itself or along one of the five ways. -/
theorem leads_of_moves {k : Control} {loops : List Phase} (hmove : c.Moves k loops)
    (h : c.control.Governs c.loops) :
    k.state = c.control.state ∨ c.control.state.Leads k.state := by
  cases hmove with
  | stay | load | ask | go => exact .inl rfl
  | begin hstate =>
      rw [hstate]
      exact .inr .begin
  | refuse hstate => exact .inl hstate.symm
  | resume hstate =>
      rw [hstate]
      exact .inr .resume
  | pause hstate =>
      rw [hstate]
      exact .inr .pause
  | hit i b hphase =>
      have hstate := (h.of_getElem? hphase).2.2.1
      cases hbefore : c.control.state with
      | stopped => exact absurd hbefore hstate
      | running => exact .inr .pause
      | paused => exact .inl rfl
  | close i reason hphase =>
      have hstate := (h.of_getElem? hphase).2.2.1
      cases hbefore : c.control.state with
      | stopped => exact absurd hbefore hstate
      | running => exact .inr .finish
      | paused => exact .inr .abandon

/-- After every schedule the record goes with the loops. -/
theorem governs_follow (h : c.control.Governs c.loops) (schedule : List Action) :
    (follow schedule c).1.control.Governs (follow schedule c).1.loops := by
  refine follow_induction (fun c _ => c.control.Governs c.loops) (fun _ => True) ?_ [] h schedule
    fun _ _ => trivial
  intro c notes a _ h
  exact governs_of_moves (c.moves_act a) h

/-- A run that an observer watches leaves the record in step with the loops. -/
theorem governs_settle {σ : Type} (h : c.control.Governs c.loops) (o : Observer σ) (bound : Nat)
    (s : σ) : (settle o bound c s).1.control.Governs (settle o bound c s).1.loops := by
  obtain ⟨schedule, -, hsettle⟩ := settle_eq_follow o bound c s
  rw [hsettle]
  exact governs_follow h schedule

/-- What holds of the control of a processor at every moment. -/
structure Controlled (c : Cpu) : Prop where
  /-- A loop is there exactly while the state is not stopped. -/
  loop_iff : c.control.state ≠ .stopped ↔ c.loops.length = 1
  loops_le : c.loops.length ≤ 1
  stopRequested : c.control.stopRequested = true → c.control.state ≠ .stopped
  lastStop : c.control.lastStop.isSome → c.control.state = .stopped
  /-- No loop finds at its turn that the state is stopped. -/
  turn : .turn ∈ c.loops → c.control.state ≠ .stopped
  leads : ∀ a : Action, (c.act a).1.control.state ≠ c.control.state →
    c.control.state.Leads (c.act a).1.control.state

theorem controlled_of_governs (h : c.control.Governs c.loops) : c.Controlled where
  loop_iff := by
    constructor
    · intro hstate
      obtain ⟨⟨phase, hloops⟩, -⟩ := h.of_running hstate
      rw [hloops, List.length_singleton]
    · intro hloops hstate
      rw [(h.of_stopped hstate).1] at hloops
      cases hloops
  loops_le := by
    by_cases hstate : c.control.state = .stopped
    · rw [(h.of_stopped hstate).1]
      exact Nat.zero_le 1
    · obtain ⟨⟨phase, hloops⟩, -⟩ := h.of_running hstate
      simp [hloops]
  stopRequested := by
    intro hstop hstate
    rw [(h.of_stopped hstate).2] at hstop
    cases hstop
  lastStop := by
    intro hlast
    refine Decidable.byContradiction fun hstate => ?_
    rw [(h.of_running hstate).2] at hlast
    cases hlast
  turn := by
    intro hturn hstate
    rw [(h.of_stopped hstate).1] at hturn
    cases hturn
  leads a hne := (leads_of_moves (c.moves_act a) h).resolve_left hne

/-- A new processor is under control after every schedule of hosts and loops. -/
theorem controlled_follow (m : Machine) (breakpoints : Breakpoints) (schedule : List Action) :
    (follow schedule { machine := m, breakpoints }).1.Controlled :=
  controlled_of_governs (governs_follow (.resting rfl rfl) schedule)

end Cpu

end B33
