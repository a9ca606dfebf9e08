import B33.Proofs.Cpu.History

/-!
# Moments of a schedule

A moment is a processor with what is done to it next, and a schedule is one moment after another.
Between two moments of a schedule the machine stands still unless a loop executes, and a loop
executes what it has already announced and nothing more as long as the control record holds it.
-/
namespace B33

/-- Whether a note is about what a host has done. -/
def Note.isHosts : Note → Bool
  | .began | .refused | .loaded => true
  | .executed _ | .told .. | .ended _ => false

theorem Phase.mem_notes {phase : Phase} {m : Machine} {note : Note} (h : note ∈ phase.notes m) :
    (∃ outcome, note = .executed outcome) ∨ ∃ reason, note = .ended reason := by
  cases phase with
  | executing => exact .inl ⟨_, List.mem_singleton.mp h⟩
  | closing reason => exact .inr ⟨reason, List.mem_singleton.mp h⟩
  | turn | announcing | checking | hitting | reporting | resting | finishing => cases h

structure Moment where
  cpu : Cpu
  action : Action

namespace Moment

variable {x : Moment}

def next (x : Moment) : Cpu := (x.cpu.act x.action).1

def notes (x : Moment) : List Note := (x.cpu.act x.action).2

/-- The phase that a loop does. -/
def phase? (x : Moment) : Option Phase :=
  match x.action with
  | .host _ => none
  | .loop i => x.cpu.loops[i]?

/-- The outcome of the instruction that is executed, if one is. -/
def outcome? (x : Moment) : Option (Except Fault Step) := x.notes.findSome? Note.executed?

def executes (x : Moment) : Bool := x.outcome?.isSome

/-- Whether a start takes effect. It begins a run that there is room for, or lets a paused one go
on. -/
def starts (x : Moment) : Bool :=
  match x.action with
  | .host (.start spawned) =>
    x.cpu.control.state = .paused || x.cpu.control.state = .stopped && spawned
  | _ => false

/-- What can become of the control record at a moment. -/
inductive Turns (x : Moment) : Control → Prop
  | stay : Turns x x.cpu.control
  | begins (hstart : x.starts = true) (hstate : x.cpu.control.state = .stopped) : Turns x .begun
  | resumes (hstart : x.starts = true) (hstate : x.cpu.control.state = .paused) :
      Turns x { x.cpu.control with state := .running }
  | refuse (hstate : x.cpu.control.state = .stopped) : Turns x {}
  | load (hstate : x.cpu.control.state = .stopped) :
      Turns x { x.cpu.control with lastStop := none }
  | pause (hstate : x.cpu.control.state = .running) :
      Turns x { x.cpu.control with state := .paused }
  | ask (hstate : x.cpu.control.state ≠ .stopped) :
      Turns x { x.cpu.control with stopRequested := true }
  | hit (b : Breakpoint) (hphase : x.phase? = some (.hitting b))
      (hstop : x.cpu.control.stopRequested = false) :
      Turns x { x.cpu.control with state := .paused }
  | close (reason : StopReason) (hphase : x.phase? = some (.closing reason)) :
      Turns x (.ended reason)

end Moment

namespace Cpu

theorem control_runPhase (phase : Phase) (c : Cpu) :
    (runPhase phase c).2.1.control =
      match phase with
      | .hitting _ =>
        if c.control.stopRequested then c.control else { c.control with state := .paused }
      | .closing reason => .ended reason
      | _ => c.control := by
  cases phase with
  | turn | announcing | reporting | resting | finishing | closing => rfl
  | executing => rw [runPhase_executing]
  | checking s => rw [runPhase_checking]
  | hitting b =>
      rw [runPhase_hitting]
      dsimp only
      split <;> rfl

theorem machine_runPhase (phase : Phase) (c : Cpu) :
    (runPhase phase c).2.1.machine =
      match phase with
      | .executing => c.machine.step.2
      | _ => c.machine := by
  cases phase with
  | turn | announcing | reporting | resting | finishing | closing => rfl
  | executing => rw [runPhase_executing]
  | checking s => rw [runPhase_checking]
  | hitting b =>
      rw [runPhase_hitting]
      split <;> rfl

/-- A host can begin a run where there is none, and leaves the loops to themselves otherwise. -/
theorem loops_hostAct (c : Cpu) (h : HostAction) :
    (c.hostAct h).1.loops = c.loops ∨
      c.control.state = .stopped ∧ (c.hostAct h).1.loops = c.loops ++ [.turn] ∧
        (c.hostAct h).2 = [.began] := by
  cases h with
  | start spawned =>
      by_cases hstate : c.control.state = .stopped
      · rw [hostAct_start_of_stopped hstate]
        cases spawned with
        | true => exact .inr ⟨hstate, rfl, rfl⟩
        | false => exact .inl rfl
      · rw [hostAct_start_of_running hstate]
        exact .inl rfl
  | load bytes origin entry =>
      rw [hostAct]
      cases hload : c.load bytes origin entry with
      | error e => exact .inl rfl
      | ok after =>
          obtain ⟨-, machine, rfl⟩ := load_eq_ok hload
          exact .inl rfl
  | pause | stop | addBreakpoint | removeBreakpoint | clearBreakpoints | onBus => exact .inl rfl

/-- During a run a host leaves loops and registers alone. -/
theorem hostAct_of_running {c : Cpu} (hstate : c.control.state ≠ .stopped) (h : HostAction) :
    (c.hostAct h).1.loops = c.loops ∧
      (c.hostAct h).1.machine.registers = c.machine.registers ∧ (c.hostAct h).2 = [] := by
  cases h with
  | start spawned =>
      rw [hostAct_start_of_running hstate]
      exact ⟨rfl, rfl, rfl⟩
  | load bytes origin entry =>
      rw [hostAct]
      cases hload : c.load bytes origin entry with
      | error e => exact ⟨rfl, rfl, rfl⟩
      | ok after => exact absurd (load_eq_ok hload).1 hstate
  | pause | stop | addBreakpoint | removeBreakpoint | clearBreakpoints | onBus =>
      exact ⟨rfl, rfl, rfl⟩

theorem isHosts_of_mem_hostAct {c : Cpu} {h : HostAction} {note : Note}
    (hnote : note ∈ (c.hostAct h).2) : note.isHosts = true := by
  cases h with
  | start spawned =>
      by_cases hstate : c.control.state = .stopped
      · rw [hostAct_start_of_stopped hstate] at hnote
        cases spawned <;> rw [List.mem_singleton.mp hnote] <;> rfl
      · rw [hostAct_start_of_running hstate] at hnote
        cases hnote
  | load bytes origin entry =>
      rw [hostAct] at hnote
      split at hnote
      · rw [List.mem_singleton.mp hnote]
        rfl
      · cases hnote
  | pause | stop | addBreakpoint | removeBreakpoint | clearBreakpoints | onBus => cases hnote

end Cpu

namespace Moment

variable {x : Moment}

theorem turns_host (c : Cpu) (h : HostAction) :
    Turns ⟨c, .host h⟩ (c.hostAct h).1.control := by
  cases h with
  | start spawned =>
      by_cases hstate : c.control.state = .stopped
      · rw [Cpu.hostAct_start_of_stopped hstate]
        cases spawned with
        | true => exact .begins (by simp [starts, hstate]) hstate
        | false => exact .refuse hstate
      · rw [Cpu.hostAct_start_of_running hstate, Control.resume]
        split
        case h_1 hpaused => exact .resumes (by simp [starts, hpaused]) hpaused
        case h_2 => exact .stay
  | pause =>
      rw [Cpu.hostAct, Cpu.pause, Control.pause]
      split
      case h_1 hstate => exact .pause hstate
      case h_2 => exact .stay
  | stop =>
      rw [Cpu.hostAct, Cpu.stop, Control.requestStop]
      split
      case h_1 => exact .stay
      case h_2 hstate => exact .ask hstate
  | load bytes origin entry =>
      rw [Cpu.hostAct]
      cases hload : c.load bytes origin entry with
      | error e => exact .stay
      | ok after =>
          obtain ⟨hstate, machine, rfl⟩ := Cpu.load_eq_ok hload
          exact .load hstate
  | addBreakpoint | removeBreakpoint | clearBreakpoints | onBus => exact .stay

theorem turns_loop (c : Cpu) (i : Nat) : Turns ⟨c, .loop i⟩ (c.loopAct i).1.control := by
  cases hphase : c.loops[i]? with
  | none =>
      rw [Cpu.loopAct, hphase]
      exact .stay
  | some phase =>
      rw [Cpu.loopAct_eq hphase]
      dsimp only
      rw [Cpu.control_runPhase]
      cases phase with
      | turn | announcing | executing | checking | reporting | resting | finishing => exact .stay
      | hitting b =>
          dsimp only
          split
          · exact .stay
          · next hstop => exact .hit b hphase (eq_false_of_ne_true hstop)
      | closing reason => exact .close reason hphase

theorem turns (x : Moment) : x.Turns x.next.control := by
  obtain ⟨c, h | i⟩ := x
  · exact turns_host c h
  · exact turns_loop c i

/-- Only a start makes a record that is not running run. -/
theorem starts_of_running (hbefore : x.cpu.control.state ≠ .running)
    (hafter : x.next.control.state = .running) : x.starts = true := by
  have hturn := x.turns
  generalize x.next.control = k at hturn hafter
  cases hturn with
  | stay | load | ask => exact absurd hafter hbefore
  | begins hstart | resumes hstart => exact hstart
  | refuse | pause | hit | close => cases hafter

/-- A request to stop is there until the run has ended. -/
theorem stopRequested_next (hgoverns : x.cpu.control.Governs x.cpu.loops)
    (hstop : x.cpu.control.stopRequested = true) (hafter : x.next.control.state ≠ .stopped) :
    x.next.control.stopRequested = true := by
  have hturn := x.turns
  generalize x.next.control = k at hturn hafter
  cases hturn with
  | stay | resumes | load | pause => exact hstop
  | ask => rfl
  | begins _ hstate => simp [(hgoverns.of_stopped hstate).2] at hstop
  | refuse | close => exact absurd rfl hafter
  | hit b _ hnone => simp [hnone] at hstop

/-- A run ends at the last phase of its loop. -/
theorem closing_of_stopped (hbefore : x.cpu.control.state ≠ .stopped)
    (hafter : x.next.control.state = .stopped) :
    ∃ reason, x.phase? = some (.closing reason) := by
  have hturn := x.turns
  generalize x.next.control = k at hturn hafter
  cases hturn with
  | stay | ask => exact absurd hafter hbefore
  | begins | resumes | pause | hit => cases hafter
  | refuse hstate | load hstate => exact absurd hstate hbefore
  | close reason hphase => exact ⟨reason, hphase⟩

theorem governs_next (hgoverns : x.cpu.control.Governs x.cpu.loops) :
    x.next.control.Governs x.next.loops :=
  Cpu.governs_of_moves (x.cpu.moves_act x.action) hgoverns

theorem next_of_phase {phase : Phase} (hgoverns : x.cpu.control.Governs x.cpu.loops)
    (hphase : x.phase? = some phase) :
    x.cpu.loops = [phase] ∧
      x.next = { (Cpu.runPhase phase x.cpu).2.1 with
        loops := (Cpu.runPhase phase x.cpu).1.toList } ∧
      x.notes = phase.notes x.cpu.machine ++
        (Cpu.runPhase phase x.cpu).2.2.map
          (.told · (Cpu.runPhase phase x.cpu).2.1.machine) := by
  obtain ⟨c, h | i⟩ := x
  · cases hphase
  · have hloop := Cpu.loopAct_eq hphase
    obtain ⟨rfl, hloops, -⟩ := hgoverns.of_getElem? hphase
    refine ⟨hloops, ?_, congrArg Prod.snd hloop⟩
    refine (congrArg Prod.fst hloop).trans ?_
    simp [show c.loops = [phase] from hloops]

/-- Where no loop does a phase and no host acts, nothing happens. -/
theorem next_of_no_phase {i : Nat} (haction : x.action = .loop i) (hphase : x.phase? = none) :
    x.next = x.cpu ∧ x.notes = [] := by
  obtain ⟨c, h | j⟩ := x
  · cases haction
  · have hloop : c.loopAct j = (c, []) := by
      rw [Cpu.loopAct, show c.loops[j]? = none from hphase]
    exact ⟨congrArg Prod.fst hloop, congrArg Prod.snd hloop⟩

/-- A note is about what a host does, or of a phase of a loop. -/
theorem mem_notes {note : Note} (hgoverns : x.cpu.control.Governs x.cpu.loops)
    (hnote : note ∈ x.notes) :
    (∃ h, x.action = .host h ∧ note.isHosts = true) ∨
      ∃ phase, x.phase? = some phase ∧ (note ∈ phase.notes x.cpu.machine ∨
        ∃ e ∈ (Cpu.runPhase phase x.cpu).2.2,
          note = .told e (Cpu.runPhase phase x.cpu).2.1.machine) := by
  cases hphase : x.phase? with
  | none =>
      obtain ⟨c, h | i⟩ := x
      · exact .inl ⟨h, rfl, Cpu.isHosts_of_mem_hostAct hnote⟩
      · rw [(next_of_no_phase rfl hphase).2] at hnote
        cases hnote
  | some phase =>
      rw [(next_of_phase hgoverns hphase).2.2, List.mem_append] at hnote
      refine .inr ⟨phase, rfl, hnote.imp_right fun htold => ?_⟩
      obtain ⟨e, he, rfl⟩ := List.mem_map.mp htold
      exact ⟨e, he, rfl⟩

/-- What is looked for in the notes and is neither what hosts do nor what observers are told is what
a loop does. -/
theorem findSome?_notes {α : Type} {find : Note → Option α}
    (hgoverns : x.cpu.control.Governs x.cpu.loops)
    (hhosts : ∀ note : Note, note.isHosts = true → find note = none)
    (htold : ∀ e m, find (.told e m) = none) :
    x.notes.findSome? find =
      x.phase?.bind fun phase => (phase.notes x.cpu.machine).findSome? find := by
  cases hphase : x.phase? with
  | none =>
      obtain ⟨c, h | i⟩ := x
      · exact List.findSome?_eq_none_iff.mpr fun note hnote =>
          hhosts note (Cpu.isHosts_of_mem_hostAct hnote)
      · rw [(next_of_no_phase rfl hphase).2]
        rfl
  | some phase =>
      have hevents : ((Cpu.runPhase phase x.cpu).2.2.map
          (Note.told · (Cpu.runPhase phase x.cpu).2.1.machine)).findSome? find = none := by
        apply List.findSome?_eq_none_iff.mpr
        intro note hnote
        obtain ⟨e, -, rfl⟩ := List.mem_map.mp hnote
        exact htold e _
      rw [(next_of_phase hgoverns hphase).2.2, List.findSome?_append, hevents, Option.or_none]
      rfl

/-- An instruction is executed in the phase that is for it, and in no other. -/
theorem executes_iff (hgoverns : x.cpu.control.Governs x.cpu.loops) :
    x.executes = true ↔ x.phase? = some .executing := by
  have hhosts (note : Note) (hnote : note.isHosts = true) : note.executed? = none := by
    cases note with
    | began | refused | loaded => rfl
    | executed | told | ended => cases hnote
  rw [executes, outcome?, findSome?_notes hgoverns hhosts fun _ _ => rfl]
  cases x.phase? with
  | none => exact iff_of_false nofun nofun
  | some phase =>
      cases phase with
      | executing => exact iff_of_true rfl rfl
      | turn | announcing | checking | hitting | reporting | resting | finishing | closing =>
          exact iff_of_false nofun nofun

end Moment

/-- How many instructions a loop executes before it looks at the control record again. -/
def Phase.due : Phase → Nat
  | .announcing | .executing => 1
  | _ => 0

/-- The loops of a processor, each counted for as much as its phase weighs. -/
def Cpu.total (weight : Phase → Nat) (c : Cpu) : Nat :=
  c.loops.foldr (fun phase rest => weight phase + rest) 0

/-- A loop that looks at the control record does not go on. -/
def Control.Holds (k : Control) : Prop := k.stopRequested = true ∨ k.state ≠ .running

namespace Cpu

variable {c : Cpu}

theorem total_of_loops {phase : Phase} (weight : Phase → Nat) (hloops : c.loops = [phase]) :
    c.total weight = weight phase := by
  rw [total, hloops]
  rfl

/-- There is at most one loop to count. -/
theorem total_le (hgoverns : c.control.Governs c.loops) {weight : Phase → Nat} {bound : Nat}
    (hweight : ∀ phase, weight phase ≤ bound) : c.total weight ≤ bound := by
  cases hloops : c.loops with
  | nil => simp [total, hloops]
  | cons phase rest =>
      obtain ⟨-, honly, -⟩ := hgoverns.of_getElem? (i := 0) (by rw [hloops]; rfl)
      rw [total_of_loops weight honly]
      exact hweight phase

theorem due_le_one (hgoverns : c.control.Governs c.loops) : c.total Phase.due ≤ 1 := by
  apply total_le hgoverns
  intro phase
  cases phase <;> simp [Phase.due]

/-- A host adds nothing to a total unless it begins a run. -/
theorem total_hostAct {weight : Phase → Nat}
    (hturn : c.control.state ≠ .stopped ∨ weight .turn = 0) (h : HostAction) :
    (c.hostAct h).1.total weight = c.total weight := by
  rw [total, total]
  obtain hloops | ⟨hstate, hloops, -⟩ := c.loops_hostAct h
  · rw [hloops]
  · simp [hloops, hturn.resolve_left (not_not_intro hstate)]

theorem takeTurn_of_holds {k : Control} (h : k.Holds) : ((takeTurn k).due) = 0 := by
  unfold takeTurn
  split
  · rfl
  · next hstop =>
    cases hstate : k.state with
    | running => exact absurd hstate (h.resolve_left hstop)
    | paused | stopped => rfl

theorem due_afterStep (outcome : Except Fault Step) : (afterStep outcome).due = 0 := by
  cases outcome with
  | error f => rfl
  | ok s =>
      rw [afterStep]
      split <;> rfl

/-- What a phase executes was due before it, and while the record holds nothing becomes due. -/
theorem due_runPhase (phase : Phase) (h : c.control.Holds) :
    (if phase = .executing then 1 else 0) + (runPhase phase c).1.elim 0 Phase.due ≤ phase.due := by
  cases phase with
  | turn =>
      change 0 + (takeTurn c.control).due ≤ 0
      exact Nat.le_of_eq ((Nat.zero_add _).trans (takeTurn_of_holds h))
  | announcing => exact Nat.le_refl 1
  | reporting | resting | finishing | closing => exact Nat.le_refl 0
  | executing =>
      rw [runPhase_executing, if_pos rfl, Option.elim_some, due_afterStep]
      exact Nat.le_refl 1
  | checking s =>
      rw [runPhase_checking]
      cases c.breakpoints.check c.machine.registers.pc s.store <;> exact Nat.le_refl 0
  | hitting b =>
      rw [runPhase_hitting, if_neg nofun]
      split <;> exact Nat.le_refl 0

end Cpu

namespace Moment

variable {x : Moment}

/-- Where a phase takes as much from a total as it counts for, so does every moment. -/
theorem total_next_le {weight : Phase → Nat} {worth : Option Phase → Nat}
    (hgoverns : x.cpu.control.Governs x.cpu.loops) (hnone : worth none = 0)
    (hturn : x.cpu.control.state ≠ .stopped ∨ weight .turn = 0)
    (hstep : ∀ phase, worth (some phase) + (Cpu.runPhase phase x.cpu).1.elim 0 weight ≤
      weight phase) :
    worth x.phase? + x.next.total weight ≤ x.cpu.total weight := by
  cases hphase : x.phase? with
  | none =>
      rw [hnone, Nat.zero_add]
      obtain ⟨c, host | i⟩ := x
      · exact Nat.le_of_eq (Cpu.total_hostAct hturn host)
      · exact Nat.le_of_eq (congrArg (Cpu.total weight) (next_of_no_phase rfl hphase).1)
  | some phase =>
      obtain ⟨hloops, hnext, -⟩ := next_of_phase hgoverns hphase
      have hafter : x.next.total weight = (Cpu.runPhase phase x.cpu).1.elim 0 weight := by
        rw [hnext, Cpu.total]
        cases (Cpu.runPhase phase x.cpu).1 with
        | none => rfl
        | some next => rfl
      rw [hafter, Cpu.total_of_loops weight hloops]
      exact hstep phase

theorem due_next (hgoverns : x.cpu.control.Governs x.cpu.loops) (h : x.cpu.control.Holds) :
    (if x.executes then 1 else 0) + x.next.total Phase.due ≤ x.cpu.total Phase.due := by
  simp only [executes_iff hgoverns]
  refine @total_next_le x Phase.due (fun phase? => if phase? = some .executing then 1 else 0)
    hgoverns rfl (.inr rfl) fun phase => ?_
  simpa only [Option.some.injEq] using Cpu.due_runPhase phase h

/-- A record that holds a loop does so until a start takes effect. -/
theorem holds_next (hgoverns : x.cpu.control.Governs x.cpu.loops) (h : x.cpu.control.Holds)
    (hstart : x.starts = false) : x.next.control.Holds := by
  by_cases hafter : x.next.control.state = .running
  · by_cases hbefore : x.cpu.control.state = .running
    · have hstop := h.resolve_right (not_not_intro hbefore)
      exact .inl (stopRequested_next hgoverns hstop (by simp [hafter]))
    · simp [starts_of_running hbefore hafter] at hstart
  · exact .inr hafter

end Moment

namespace Cpu

variable {c : Cpu}

/-- The moments of a schedule, in order. -/
def moments : List Action → Cpu → List Moment
  | [], _ => []
  | a :: rest, c => ⟨c, a⟩ :: moments rest (c.act a).1

/-- What holds at first, and stays so from each moment to the next, holds at every moment and at the
end. -/
theorem moments_induction (P : Cpu → Prop) {schedule : List Action} (h : P c)
    (step : ∀ x ∈ moments schedule c, P x.cpu → P x.next) :
    (∀ x ∈ moments schedule c, P x.cpu) ∧ P (follow schedule c).1 := by
  induction schedule generalizing c with
  | nil => exact ⟨fun _ hx => absurd hx List.not_mem_nil, h⟩
  | cons a rest ih =>
      rw [moments, List.forall_mem_cons] at step
      obtain ⟨hall, hend⟩ := ih (step.1 h) step.2
      rw [moments, List.forall_mem_cons]
      exact ⟨⟨h, hall⟩, hend⟩

theorem governs_moments (hgoverns : c.control.Governs c.loops) (schedule : List Action) :
    ∀ x ∈ moments schedule c, x.cpu.control.Governs x.cpu.loops :=
  (moments_induction (fun c => c.control.Governs c.loops) hgoverns fun _ _ => Moment.governs_next).1

/-- Where every moment of a kind takes something away and no other adds to it, no more of that kind
come than there was at first. -/
theorem countP_moments_le (kind : Moment → Bool) (left : Cpu → Nat) {schedule : List Action}
    (step : ∀ x ∈ moments schedule c, (if kind x then 1 else 0) + left x.next ≤ left x.cpu) :
    (moments schedule c).countP kind + left (follow schedule c).1 ≤ left c := by
  induction schedule generalizing c with
  | nil => exact Nat.le_of_eq (Nat.zero_add _)
  | cons a rest ih =>
      rw [moments, List.forall_mem_cons] at step
      have hfirst : _ + left (c.act a).1 ≤ left c := step.1
      have hrest := ih step.2
      rw [moments, List.countP_cons]
      change _ + left (follow rest (c.act a).1).1 ≤ _
      omega

/-- While the record holds, no more is executed than was due. -/
theorem countP_executes_le (hgoverns : c.control.Governs c.loops) {schedule : List Action}
    (hholds : ∀ x ∈ moments schedule c, x.cpu.control.Holds) :
    (moments schedule c).countP Moment.executes + (follow schedule c).1.total Phase.due ≤
      c.total Phase.due := by
  apply countP_moments_le Moment.executes (total Phase.due)
  intro x hx
  exact Moment.due_next (governs_moments hgoverns schedule x hx) (hholds x hx)

/-- A record that holds a loop does so as long as no start takes effect. -/
theorem holds_moments (hgoverns : c.control.Governs c.loops) (h : c.control.Holds)
    {schedule : List Action} (hstart : ∀ x ∈ moments schedule c, x.starts = false) :
    ∀ x ∈ moments schedule c, x.cpu.control.Holds := by
  have hall := governs_moments hgoverns schedule
  refine (moments_induction (fun c => c.control.Holds) h ?_).1
  intro x hx hholds
  exact Moment.holds_next (hall x hx) hholds (hstart x hx)

end Cpu

end B33
