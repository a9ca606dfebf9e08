import B33.Cpu.Hook
import B33.Proofs.Cpu.Control

/-!
# What observers are told

While hosts only start, pause and stop a processor and change its breakpoints, its loop does one
step of the machine after another, whatever the schedule. The notes of a schedule then follow a
grammar: runs stand one behind the other, a run is a row of instructions and ends with its reason,
and of each instruction observers are told what it did, in order, before the next one begins.
-/
namespace B33

/-- The machine after `n` steps. A step that faults counts as well. -/
def Machine.after (m : Machine) : Nat → Machine
  | 0 => m
  | n + 1 => (m.after n).step.2

theorem Machine.after_succ (m : Machine) (n : Nat) : m.after (n + 1) = (m.after n).step.2 := by
  rw [after]

/-- A breakpoint is met at the address that is executed next, or that has been stored to. -/
def Breakpoint.IsMet (b : Breakpoint) (s : Step) (m : Machine) : Prop :=
  match b.kind with
  | .execution => b.address = m.registers.pc
  | .store => s.store = some b.address

/-- What observers are told of an instruction that has been executed: where it stored, if it did,
and then that registers differ, if they do. -/
def Machine.effects (before : Machine) (s : Step) : List Note :=
  let after := before.step.2
  let stored := match s.store with
    | some address => [Note.told (.stored address) after]
    | none => []
  let changed :=
    if after.registers ≠ before.registers then [Note.told .registersChanged after] else []
  stored ++ changed

/-- How far the notes of a schedule have come. -/
inductive Stage where
  /-- There is no run. -/
  | idle
  /-- A run is between two instructions. -/
  | ready
  /-- Observers have been told of the next instruction. -/
  | announced
  /-- An instruction has been executed, and a breakpoint can be met. -/
  | stepped (s : Step)
  /-- The run is about to end. -/
  | ending (reason : StopReason)
  /-- Observers have been told that the run ends. -/
  | told (reason : StopReason)

/-- The notes that a machine can leave while it does its first `n` steps. -/
inductive History (m : Machine) : Nat → Stage → List Note → Prop
  | nil : History m 0 .idle []
  | begin {n notes} (h : History m n .idle notes) : History m n .ready (notes ++ [.began])
  | refuse {n notes} (h : History m n .idle notes) : History m n .idle (notes ++ [.refused])
  | announce {n notes} (h : History m n .ready notes) :
      History m n .announced (notes ++ [.told (.before (m.after n).registers.pc) (m.after n)])
  /-- Nothing more is told of an instruction that faults. -/
  | fault {n notes} (f : Fault) (hstep : (m.after n).step.1 = .error f)
      (h : History m n .announced notes) :
      History m (n + 1) (.ending (.fault f)) (notes ++ [.executed (.error f)])
  | halt {n notes} (s : Step) (hstep : (m.after n).step.1 = .ok s) (hhalted : s.halted = true)
      (h : History m n .announced notes) :
      History m (n + 1) (.ending .halted) (notes ++ .executed (.ok s) :: (m.after n).effects s)
  | execute {n notes} (s : Step) (hstep : (m.after n).step.1 = .ok s) (hhalted : s.halted = false)
      (h : History m n .announced notes) :
      History m (n + 1) (.stepped s) (notes ++ .executed (.ok s) :: (m.after n).effects s)
  | pass {n notes} (s : Step) (h : History m n (.stepped s) notes) : History m n .ready notes
  | hit {n notes} (s : Step) (b : Breakpoint) (hmet : b.IsMet s (m.after n))
      (h : History m n (.stepped s) notes) :
      History m n .ready (notes ++ [.told (.hit b) (m.after n)])
  /-- A run can be asked to end between two instructions. -/
  | request {n notes} (h : History m n .ready notes) : History m n (.ending .requested) notes
  | tell {n notes} (reason : StopReason) (h : History m n (.ending reason) notes) :
      History m n (.told reason) (notes ++ [.told (.stopped reason) (m.after n)])
  | close {n notes} (reason : StopReason) (h : History m n (.told reason) notes) :
      History m n .idle (notes ++ [.ended reason])

/-- The loops that there are at a stage, given the machine. -/
inductive Stage.Fits (m : Machine) : Stage → List Phase → Prop
  | idle : Fits m .idle []
  | turn : Fits m .ready [.turn]
  | announcing : Fits m .ready [.announcing]
  | resting : Fits m .ready [.resting]
  | executing : Fits m .announced [.executing]
  | checking (s : Step) : Fits m (.stepped s) [.checking s]
  | hitting (s : Step) (b : Breakpoint) (hmet : b.IsMet s m) : Fits m (.stepped s) [.hitting b]
  | reporting (s : Step) (b : Breakpoint) (hmet : b.IsMet s m) : Fits m (.stepped s) [.reporting b]
  | finishing (reason : StopReason) : Fits m (.ending reason) [.finishing reason]
  | closing (reason : StopReason) : Fits m (.told reason) [.closing reason]

/-- The outcome of an instruction that was executed. -/
def Note.executed? : Note → Option (Except Fault Step)
  | .executed outcome => some outcome
  | _ => none

/-- Whether a note is about the beginning or the end of a run. -/
def Note.isBoundary : Note → Bool
  | .began | .told (.stopped _) _ | .ended _ => true
  | _ => false

/-- The beginning and the end of a run that stops for a reason. -/
def Note.boundaries (run : StopReason × Machine) : List Note :=
  [.began, .told (.stopped run.1) run.2, .ended run.1]

/-- What there is of a run that has begun and not ended. -/
def Stage.opened (m : Machine) : Stage → List Note
  | .idle => []
  | .told reason => [.began, .told (.stopped reason) m]
  | _ => [.began]

namespace History

variable {m : Machine} {n : Nat} {stage : Stage} {notes : List Note}

theorem filterMap_effects (m : Machine) (s : Step) :
    (m.effects s).filterMap Note.executed? = [] := by
  unfold Machine.effects
  cases s.store <;> dsimp only <;> split <;> rfl

theorem filter_effects (m : Machine) (s : Step) : (m.effects s).filter Note.isBoundary = [] := by
  unfold Machine.effects
  cases s.store <;> dsimp only <;> split <;> rfl

/-- What was executed are the first steps of the machine. -/
theorem executed_eq (h : History m n stage notes) :
    notes.filterMap Note.executed? = (List.range n).map fun k => (m.after k).step.1 := by
  induction h with
  | nil => rfl
  | begin _ ih | refuse _ ih | announce _ ih | hit _ _ _ _ ih | tell _ _ ih | close _ _ ih =>
      rw [List.filterMap_append, ih]
      exact List.append_nil _
  | pass _ _ ih | request _ ih => exact ih
  | fault f hstep _ ih =>
      rw [List.filterMap_append, ih, List.range_succ, List.map_append, List.map_singleton, hstep]
      rfl
  | halt s hstep _ _ ih | execute s hstep _ _ ih =>
      rw [List.filterMap_append, ih, List.range_succ, List.map_append, List.map_singleton, hstep,
        List.filterMap_cons, filterMap_effects]
      rfl

/-- Runs stand one behind the other, and only the last can be without its end. -/
theorem boundaries_eq (h : History m n stage notes) :
    ∃ runs : List (StopReason × Machine), notes.filter Note.isBoundary =
      runs.flatMap Note.boundaries ++ stage.opened (m.after n) := by
  induction h with
  | nil => exact ⟨[], rfl⟩
  | begin _ ih | refuse _ ih | announce _ ih | fault _ _ _ ih | hit _ _ _ _ ih | tell _ _ ih =>
      obtain ⟨runs, hruns⟩ := ih
      refine ⟨runs, ?_⟩
      rw [List.filter_append, hruns, List.append_assoc]
      rfl
  | halt s _ _ _ ih | execute s _ _ _ ih =>
      obtain ⟨runs, hruns⟩ := ih
      refine ⟨runs, ?_⟩
      rw [List.filter_append, List.filter_cons, filter_effects, hruns, List.append_assoc]
      rfl
  | pass _ _ ih | request _ ih => exact ih
  | @close n notes reason _ ih =>
      obtain ⟨runs, hruns⟩ := ih
      refine ⟨runs ++ [(reason, m.after n)], ?_⟩
      rw [List.filter_append, hruns, List.flatMap_append, List.append_assoc, List.append_assoc]
      rfl

theorem boundaries_prefix (h : History m n stage notes) :
    ∃ runs : List (StopReason × Machine),
      notes.filter Note.isBoundary <+: runs.flatMap Note.boundaries := by
  obtain ⟨runs, hruns⟩ := h.boundaries_eq
  rw [hruns]
  -- Only a run that has told its reason fixes it. Any other can still end for any reason.
  obtain ⟨reason, hprefix⟩ : ∃ reason, stage.opened (m.after n) <+:
      Note.boundaries (reason, m.after n) := by
    cases stage with
    | told reason => exact ⟨reason, _, rfl⟩
    | idle | ready | announced | stepped | ending => exact ⟨.halted, _, rfl⟩
  refine ⟨runs ++ [(reason, m.after n)], ?_⟩
  rw [List.flatMap_append, List.flatMap_singleton]
  exact (List.prefix_append_right_inj _).mpr hprefix

end History

theorem Breakpoints.isMet_of_check {bs : Breakpoints} {s : Step} {m : Machine} {b : Breakpoint}
    (h : bs.check m.registers.pc s.store = some b) : b.IsMet s m := by
  unfold check at h
  split at h
  · cases h
    rfl
  · obtain ⟨address, haddress, rfl⟩ := Option.map_eq_some_iff.mp h
    exact (Option.filter_eq_some_iff.mp haddress).1

theorem Machine.events_eq (m : Machine) (s : Step) :
    (s.events m.registers m.step.2.registers).map (Note.told · m.step.2) = m.effects s := by
  unfold Step.events effects
  cases s.store with
  | none => by_cases h : m.step.2.registers = m.registers <;> simp [h]
  | some address => by_cases h : m.step.2.registers = m.registers <;> simp [h]

namespace Cpu

variable {c : Cpu} {m : Machine} {n : Nat} {stage : Stage} {notes : List Note}

/-- The notes so far are a history of the machine, and the processor is where they leave it. -/
structure Records (m : Machine) (c : Cpu) (n : Nat) (stage : Stage) (notes : List Note) : Prop where
  history : History m n stage notes
  machine_eq : c.machine = m.after n
  fits : stage.Fits (m.after n) c.loops
  governs : c.control.Governs c.loops

theorem Records.hostAct (h : Records m c n stage notes) {a : HostAction}
    (hquiet : (Action.host a).isQuiet) :
    ∃ stage, Records m (c.hostAct a).1 n stage (notes ++ (c.hostAct a).2) := by
  have hgoverns := governs_of_moves (c.moves_hostAct a) h.governs
  obtain ⟨hhistory, hmachine, hfits, hbefore⟩ := h
  cases a with
  | start spawned =>
      by_cases hstate : c.control.state = .stopped
      · obtain ⟨hloops, -⟩ := hbefore.of_stopped hstate
        rw [hostAct_start_of_stopped hstate] at hgoverns ⊢
        rw [hloops] at hfits hgoverns ⊢
        cases hfits
        cases spawned with
        | true => exact ⟨.ready, hhistory.begin, hmachine, .turn, hgoverns⟩
        | false => exact ⟨.idle, hhistory.refuse, hmachine, .idle, hgoverns⟩
      · rw [hostAct_start_of_running hstate] at hgoverns ⊢
        refine ⟨stage, ?_, hmachine, hfits, hgoverns⟩
        rw [List.append_nil]
        exact hhistory
  | pause | stop | addBreakpoint | removeBreakpoint | clearBreakpoints =>
      refine ⟨stage, ?_, hmachine, hfits, hgoverns⟩
      rw [Cpu.hostAct, List.append_nil]
      exact hhistory
  | load | onBus => cases hquiet

theorem history_executing (h : History m n .announced notes) (hmachine : c.machine = m.after n) :
    ∃ stage, History m (n + 1) stage (notes ++ ([.executed c.machine.step.1] ++
        (outcomeEvents c.machine.registers c.machine.step.2.registers c.machine.step.1).map
          (.told · c.machine.step.2))) ∧
      stage.Fits (m.after (n + 1)) [afterStep c.machine.step.1] := by
  rw [hmachine]
  cases hstep : (m.after n).step.1 with
  | error f => exact ⟨.ending (.fault f), h.fault f hstep, .finishing _⟩
  | ok s =>
      rw [outcomeEvents, Machine.events_eq, List.singleton_append]
      cases hhalted : s.halted with
      | true =>
          refine ⟨.ending .halted, h.halt s hstep hhalted, ?_⟩
          rw [afterStep, if_pos hhalted]
          exact .finishing _
      | false =>
          refine ⟨.stepped s, h.execute s hstep hhalted, ?_⟩
          rw [afterStep, hhalted]
          exact .checking s

/-- A phase of the loop adds to the history what the machine's next steps allow. -/
theorem history_runPhase {phase : Phase} (h : History m n stage notes)
    (hmachine : c.machine = m.after n) (hfits : stage.Fits (m.after n) [phase]) :
    ∃ n stage, History m n stage (notes ++ (phase.notes c.machine ++
        (runPhase phase c).2.2.map (.told · (runPhase phase c).2.1.machine))) ∧
      (runPhase phase c).2.1.machine = m.after n ∧
      stage.Fits (m.after n) (runPhase phase c).1.toList := by
  cases hfits with
  | turn =>
      refine ⟨n, ?_⟩
      rw [show runPhase .turn c = (some (takeTurn c.control), c, []) from rfl]
      simp only [Phase.notes, List.map_nil, List.append_nil, Option.toList_some]
      unfold takeTurn
      split
      · exact ⟨.ending .requested, h.request, hmachine, .finishing _⟩
      · -- The state is never stopped here, but the history would allow it.
        cases c.control.state with
        | running => exact ⟨.ready, h, hmachine, .announcing⟩
        | paused => exact ⟨.ready, h, hmachine, .turn⟩
        | stopped => exact ⟨.ending .requested, h.request, hmachine, .finishing _⟩
  | announcing =>
      refine ⟨n, .announced, ?_, hmachine, .executing⟩
      have hnext := h.announce
      rw [← hmachine] at hnext
      exact hnext
  | resting =>
      refine ⟨n, .ready, ?_, hmachine, .turn⟩
      exact (List.append_nil notes).symm ▸ h
  | executing =>
      rw [runPhase_executing, Phase.notes]
      dsimp only
      obtain ⟨next, hnext, hfits⟩ := history_executing h hmachine
      refine ⟨n + 1, next, hnext, ?_, hfits⟩
      rw [Machine.after_succ, hmachine]
  | checking s =>
      rw [runPhase_checking]
      simp only [Phase.notes, List.map_nil, List.append_nil, Option.toList_some]
      cases hcheck : c.breakpoints.check c.machine.registers.pc s.store with
      | none => exact ⟨n, .ready, h.pass, hmachine, .resting⟩
      | some b =>
          rw [hmachine] at hcheck
          exact ⟨n, .stepped s, h, hmachine, .hitting s b (Breakpoints.isMet_of_check hcheck)⟩
  | hitting s b hmet =>
      -- A stop that was asked for meanwhile comes before the breakpoint.
      rw [runPhase_hitting]
      split
      · refine ⟨n, .ready, ?_, hmachine, .resting⟩
        exact (List.append_nil notes).symm ▸ h.pass
      · refine ⟨n, .stepped s, ?_, hmachine, .reporting s b hmet⟩
        exact (List.append_nil notes).symm ▸ h
  | reporting s b hmet =>
      refine ⟨n, .ready, ?_, hmachine, .resting⟩
      have hnext := h.hit s b hmet
      rw [← hmachine] at hnext
      exact hnext
  | finishing reason =>
      refine ⟨n, .told reason, ?_, hmachine, .closing reason⟩
      have hnext := h.tell
      rw [← hmachine] at hnext
      exact hnext
  | closing reason => exact ⟨n, .idle, h.close, hmachine, .idle⟩

theorem Records.loopAct (h : Records m c n stage notes) (i : Nat) :
    ∃ n stage, Records m (c.loopAct i).1 n stage (notes ++ (c.loopAct i).2) := by
  have hgoverns := governs_of_moves (c.moves_loopAct i) h.governs
  cases hphase : c.loops[i]? with
  | none =>
      refine ⟨n, stage, ?_⟩
      rw [Cpu.loopAct, hphase, List.append_nil]
      exact h
  | some phase =>
      obtain ⟨rfl, hloops, -⟩ := h.governs.of_getElem? hphase
      obtain ⟨n, stage, hhistory, hmachine, hfits⟩ :=
        history_runPhase h.history h.machine_eq (hloops ▸ h.fits)
      refine ⟨n, stage, ?_, ?_, ?_, hgoverns⟩
      · rw [loopAct_eq hphase]
        exact hhistory
      · rw [loopAct_eq hphase]
        exact hmachine
      · rw [loopAct_eq hphase, hloops]
        simpa using hfits

theorem Records.follow (h : Records m c n stage notes) {schedule : List Action}
    (quiet : ∀ a ∈ schedule, a.isQuiet) :
    ∃ n stage, Records m (follow schedule c).1 n stage (notes ++ (follow schedule c).2) := by
  refine follow_induction (fun c notes => ∃ n stage, Records m c n stage notes)
    (fun a => a.isQuiet) ?_ notes ⟨n, stage, h⟩ schedule quiet
  rintro c notes (a | i) hquiet ⟨n, stage, h⟩
  · exact ⟨n, h.hostAct hquiet⟩
  · exact h.loopAct i

/-- The reason that notes give for the last stop, where `last` is the one before them. -/
def lastReason (last : Option StopReason) (notes : List Note) : Option StopReason :=
  notes.foldl (fun last note =>
    match note with
    | .began | .refused | .loaded => none
    | .ended reason => some reason
    | .executed _ | .told .. => last) last

theorem lastReason_append (last : Option StopReason) (first second : List Note) :
    lastReason last (first ++ second) = lastReason (lastReason last first) second :=
  List.foldl_append ..

theorem lastReason_told (last : Option StopReason) (events : List Event) (m : Machine) :
    lastReason last (events.map (.told · m)) = last := by
  induction events with
  | nil => rfl
  | cons e rest ih => exact ih

theorem lastStop_resume (k : Control) : k.resume.lastStop = k.lastStop := by
  unfold Control.resume
  split <;> rfl

theorem lastStop_pause (k : Control) : k.pause.lastStop = k.lastStop := by
  unfold Control.pause
  split <;> rfl

theorem lastStop_requestStop (k : Control) :
    k.requestStop.lastStop = k.lastStop := by
  unfold Control.requestStop
  split <;> rfl

theorem lastStop_hostAct (c : Cpu) (a : HostAction) :
    (c.hostAct a).1.control.lastStop = lastReason c.control.lastStop (c.hostAct a).2 := by
  cases a with
  | start spawned =>
      by_cases hstate : c.control.state = .stopped
      · rw [hostAct_start_of_stopped hstate]
        cases spawned <;> rfl
      · rw [hostAct_start_of_running hstate]
        exact lastStop_resume c.control
  | pause => exact lastStop_pause c.control
  | stop => exact lastStop_requestStop c.control
  | load bytes origin entry =>
      rw [hostAct]
      cases hload : c.load bytes origin entry with
      | error e => rfl
      | ok after =>
          obtain ⟨-, machine, rfl⟩ := load_eq_ok hload
          rfl
  | addBreakpoint | removeBreakpoint | clearBreakpoints | onBus => rfl

theorem lastStop_loopAct (c : Cpu) (i : Nat) :
    (c.loopAct i).1.control.lastStop = lastReason c.control.lastStop (c.loopAct i).2 := by
  cases hphase : c.loops[i]? with
  | none =>
      rw [Cpu.loopAct, hphase]
      rfl
  | some phase =>
      rw [loopAct_eq hphase, lastReason_append, lastReason_told]
      cases phase with
      | turn | announcing | reporting | resting | finishing | closing => rfl
      | executing =>
          rw [runPhase_executing]
          rfl
      | checking s =>
          rw [runPhase_checking]
          rfl
      | hitting b =>
          rw [runPhase_hitting]
          split <;> rfl

theorem lastStop_follow (c : Cpu) (schedule : List Action) :
    (follow schedule c).1.control.lastStop =
      lastReason c.control.lastStop (follow schedule c).2 := by
  refine follow_induction
    (fun after notes => after.control.lastStop = lastReason c.control.lastStop notes)
    (fun _ => True) ?_ [] rfl schedule fun _ _ => trivial
  rintro before notes (a | i) - h
  · rw [act, lastStop_hostAct, lastReason_append, h]
  · rw [act, lastStop_loopAct, lastReason_append, h]

theorem tellEach_fst (e : Event) (m : Machine) (hooks : List Hook) :
    (Hook.tellEach e m hooks).1 = hooks.map fun h => (h.tell e m).1 := by
  induction hooks with
  | nil => rfl
  | cons h rest ih => exact congrArg ((h.tell e m).1 :: ·) ih

/-- One hook as an observer. -/
def single : Observer Hook where
  tell := Hook.tell
  isCurious := Hook.isCurious

/-- Each hook makes of the notes what it would make of them alone. -/
theorem hear_hooks (notes : List Note) (hooks : List Hook) :
    hear Hook.observer notes hooks = hooks.map (hear single notes) := by
  induction notes generalizing hooks with
  | nil => exact (List.map_id hooks).symm
  | cons note rest ih =>
      cases note with
      | told e m =>
          refine (ih (Hook.tellEach e m hooks).1).trans ?_
          rw [tellEach_fst, List.map_map]
          rfl
      | began | refused | loaded | executed | ended => exact ih hooks

/-- A processor that has left these notes has done the first steps of a machine, one after another,
and told of them in order. -/
structure Refines (m : Machine) (c : Cpu) (notes : List Note) : Prop where
  /-- The `k`th instruction that was executed is the `k`th step of the machine, and the notes follow
  the grammar up to where the processor stands. -/
  steps : ∃ n stage, c.machine = m.after n ∧
    notes.filterMap Note.executed? = (List.range n).map (fun k => (m.after k).step.1) ∧
    History m n stage notes ∧ stage.Fits (m.after n) c.loops
  /-- Each run that has ended was begun, and told once that it stops, for the reason it ended. -/
  runs : ∃ runs : List (StopReason × Machine),
    notes.filter Note.isBoundary <+: runs.flatMap Note.boundaries
  /-- Every hook is told all of it. -/
  hooks : ∀ hooks : List Hook, hear Hook.observer notes hooks = hooks.map (hear single notes)

/-- While hosts leave machine and bus alone, a processor that was at rest refines its machine after
every schedule. The reason it gives for its last stop is that of the run that ended last, until the
next run begins or a program is loaded. -/
theorem follow_refines (m : Machine) (breakpoints : Breakpoints) (last : Option StopReason)
    (schedule : List Action) (quiet : ∀ a ∈ schedule, a.isQuiet) :
    let start : Cpu := { machine := m, breakpoints, control := { lastStop := last } }
    Refines m (follow schedule start).1 (follow schedule start).2 ∧
      ∀ later : List Action, (follow (schedule ++ later) start).1.control.lastStop =
        lastReason last (follow (schedule ++ later) start).2 := by
  intro start
  have hstart : Records m start 0 .idle [] := ⟨.nil, rfl, .idle, .resting rfl rfl⟩
  obtain ⟨n, stage, h⟩ := hstart.follow quiet
  rw [List.nil_append] at h
  refine ⟨⟨?_, h.history.boundaries_prefix, hear_hooks _⟩, fun later => lastStop_follow _ _⟩
  exact ⟨n, stage, h.machine_eq, h.history.executed_eq, h.history, h.fits⟩

/-- A program that stores is held at the address it stored to, until a host starts it again, and
then halts. Loading another one forgets why it stopped. -/
theorem refines_store_and_halt :
    let m : Machine := { bus := ({} : Bus).pokeAll 0 [0x10, 0x63, 0x25, 0x08, 0x00, 0x01] }
    let start : Cpu := { machine := m, breakpoints := { store := [8] } }
    let schedule : List Action := .host (.start true) :: List.replicate 13 (.loop 0) ++
      .host (.start true) :: List.replicate 5 (.loop 0)
    (∀ a ∈ schedule, a.isQuiet) ∧
      Refines m (follow schedule start).1 (follow schedule start).2 ∧
      (follow schedule start).1.control = .ended .halted ∧
      (follow schedule start).2.filterMap Note.event? =
        [.before 0, .registersChanged, .before 2, .stored 8, .registersChanged, .hit ⟨.store, 8⟩,
          .before 5, .registersChanged, .stopped .halted] ∧
      (follow (schedule ++ [.host (.load [0x01] 0 0)]) start).1.control.lastStop = none := by
  intro m start schedule
  have quiet : ∀ a ∈ schedule, a.isQuiet := by decide
  obtain ⟨hrefines, hlast⟩ := follow_refines m { store := [8] } none schedule quiet
  refine ⟨quiet, hrefines, by decide +kernel, by decide +kernel, ?_⟩
  rw [hlast]
  decide +kernel

end Cpu

end B33
