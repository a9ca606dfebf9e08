import B33.Proofs.Cpu.Moment

/-!
# Instruction boundaries

A request to stop and a pause come to a loop at its next turn. Until then it can execute one more
instruction, if that was announced before, and nothing that hosts do in between makes it execute
another one. The reason that a run gives in the end is that of its last instruction, if that faulted
or halted, and otherwise that it was asked to.
-/
namespace B33

def Note.ended? : Note → Option StopReason
  | .ended reason => some reason
  | _ => none

/-- The reason for which a run ends at a moment, if one ends. -/
def Moment.ended? (x : Moment) : Option StopReason := x.notes.findSome? Note.ended?

def Moment.isLoops (x : Moment) : Bool := x.phase?.isSome

/-- The outcome of the last instruction of a run, given the one before a note. -/
def Note.lastOutcome (last : Option (Except Fault Step)) : Note → Option (Except Fault Step)
  | .began => none
  | .executed outcome => some outcome
  | .refused | .loaded | .told .. | .ended _ => last

/-- The outcome of the last instruction of the run that notes end with. -/
def lastOutcome (notes : List Note) : Option (Except Fault Step) :=
  notes.foldl Note.lastOutcome none

/-- Why a run ends after an instruction, or before its first one. -/
def StopReason.after : Option (Except Fault Step) → StopReason
  | some (.error f) => .fault f
  | some (.ok s) => if s.halted then .halted else .requested
  | none => .requested

/-- The reason that a loop would give if it had to end without executing anything more. -/
def Phase.reason : Phase → StopReason
  | .finishing reason | .closing reason => reason
  | _ => .requested

/-- How many phases a loop that has been asked to stop has before it. -/
def Phase.left : Phase → Nat
  | .announcing => 8
  | .executing => 7
  | .checking _ => 6
  | .hitting _ | .reporting _ => 5
  | .resting => 4
  | .turn => 3
  | .finishing _ => 2
  | .closing _ => 1

namespace Moment

variable {x : Moment}

/-- A run ends when its loop is closed. -/
theorem ended?_eq (hgoverns : x.cpu.control.Governs x.cpu.loops) :
    x.ended? = match x.phase? with
      | some (.closing reason) => some reason
      | _ => none := by
  have hhosts (note : Note) (hnote : note.isHosts = true) : note.ended? = none := by
    cases note with
    | began | refused | loaded => rfl
    | executed | told | ended => cases hnote
  rw [ended?, findSome?_notes hgoverns hhosts fun _ _ => rfl]
  cases x.phase? with
  | none => rfl
  | some phase => cases phase <;> rfl

/-- Where a run does not end, a request to stop stays. -/
theorem stopRequested_of_not_ended (hgoverns : x.cpu.control.Governs x.cpu.loops)
    (hended : x.ended? = none) (hstop : x.cpu.control.stopRequested = true) :
    x.next.control.stopRequested = true := by
  apply stopRequested_next hgoverns hstop
  intro hafter
  have hbefore : x.cpu.control.state ≠ .stopped := by
    intro hstate
    simp [(hgoverns.of_stopped hstate).2] at hstop
  obtain ⟨reason, hphase⟩ := closing_of_stopped hbefore hafter
  simp [ended?_eq hgoverns, hphase] at hended

end Moment

namespace Cpu

variable {c : Cpu}

/-- A loop that has been asked to stop has fewer phases before it after each of them. -/
theorem left_runPhase (phase : Phase) (hstop : c.control.stopRequested = true) :
    1 + (runPhase phase c).1.elim 0 Phase.left ≤ phase.left := by
  cases phase with
  | turn =>
      change 1 + (takeTurn c.control).left ≤ 3
      rw [takeTurn, if_pos hstop]
      exact Nat.le_refl 3
  | announcing | reporting | resting | finishing | closing => exact Nat.le_refl _
  | executing =>
      rw [runPhase_executing]
      cases c.machine.step.1 with
      | error f => simp [afterStep, Phase.left]
      | ok s => cases hhalted : s.halted <;> simp [afterStep, hhalted, Phase.left]
  | checking s =>
      rw [runPhase_checking]
      cases c.breakpoints.check c.machine.registers.pc s.store <;> simp [Phase.left]
  | hitting b =>
      rw [runPhase_hitting, if_pos hstop]
      exact Nat.le_refl _

theorem lastOutcome_append (first second : List Note) :
    lastOutcome (first ++ second) = second.foldl Note.lastOutcome (lastOutcome first) :=
  List.foldl_append

theorem lastOutcome_told (notes : List Note) (events : List Event) (m : Machine) :
    lastOutcome (notes ++ events.map (.told · m)) = lastOutcome notes := by
  rw [lastOutcome_append]
  induction events with
  | nil => rfl
  | cons e rest ih => exact ih

/-- The next phase of a loop gives the reason that its last instruction has given. -/
theorem reason_runPhase {phase next : Phase} (h : (runPhase phase c).1 = some next) :
    next.reason =
      if phase = .executing then .after (some c.machine.step.1) else phase.reason := by
  cases phase with
  | turn =>
      cases h
      simp only [reduceCtorEq, if_false, takeTurn]
      split
      · rfl
      · cases c.control.state <;> rfl
  | announcing | reporting | resting | finishing =>
      cases h
      rfl
  | executing =>
      rw [runPhase_executing] at h
      rw [if_pos rfl, ← Option.some.inj h]
      cases c.machine.step.1 with
      | error f => rfl
      | ok s =>
          cases hhalted : s.halted <;> simp [afterStep, StopReason.after, hhalted, Phase.reason]
  | checking s =>
      rw [runPhase_checking] at h
      cases h
      simp only [reduceCtorEq, if_false]
      cases c.breakpoints.check c.machine.registers.pc s.store <;> rfl
  | hitting b =>
      rw [runPhase_hitting] at h
      simp only [reduceCtorEq, if_false]
      split at h <;> cases h <;> rfl
  | closing reason => cases h

end Cpu

/-- Whatever is done, a loop goes on to give the reason of the last instruction of its run. -/
theorem Moment.reason_next {x : Moment} (hgoverns : x.cpu.control.Governs x.cpu.loops)
    {notes : List Note}
    (h : ∀ phase ∈ x.cpu.loops, phase.reason = .after (lastOutcome notes)) :
    ∀ phase ∈ x.next.loops, phase.reason = .after (lastOutcome (notes ++ x.notes)) := by
  cases hphase : x.phase? with
  | none =>
      obtain ⟨c, host | i⟩ := x
      · by_cases hstate : c.control.state = .stopped
        · have hnone : c.loops = [] := (hgoverns.of_stopped hstate).1
          obtain hloops | ⟨-, hloops, hnotes⟩ := c.loops_hostAct host
          · intro phase hmem
            simp [next, Cpu.act, hloops, hnone] at hmem
          · intro phase hmem
            rw [show next ⟨c, .host host⟩ = (c.hostAct host).1 from rfl, hloops, hnone] at hmem
            rw [show Moment.notes ⟨c, .host host⟩ = (c.hostAct host).2 from rfl, hnotes,
              Cpu.lastOutcome_append, List.mem_singleton.mp hmem]
            rfl
        · obtain ⟨hloops, -, hnotes⟩ := Cpu.hostAct_of_running hstate host
          rw [show next ⟨c, .host host⟩ = (c.hostAct host).1 from rfl, hloops,
            show Moment.notes ⟨c, .host host⟩ = (c.hostAct host).2 from rfl, hnotes,
            List.append_nil]
          exact h
      · rw [(next_of_no_phase rfl hphase).1, (next_of_no_phase rfl hphase).2, List.append_nil]
        exact h
  | some phase =>
      obtain ⟨hloops, hnext, hnotes⟩ := next_of_phase hgoverns hphase
      have hbefore := h phase (by simp [hloops])
      intro next hmem
      rw [hnext, Option.mem_toList] at hmem
      rw [Cpu.reason_runPhase hmem, hnotes, ← List.append_assoc, Cpu.lastOutcome_told,
        Cpu.lastOutcome_append]
      cases phase with
      | executing =>
          rw [if_pos rfl]
          rfl
      | turn | announcing | checking | hitting | reporting | resting | finishing | closing =>
          simp only [reduceCtorEq, if_false]
          exact hbefore

namespace Cpu

variable {c : Cpu}

theorem left_next {x : Moment} (hgoverns : x.cpu.control.Governs x.cpu.loops)
    (hstop : x.cpu.control.stopRequested = true) :
    (if x.isLoops then 1 else 0) + x.next.total Phase.left ≤ x.cpu.total Phase.left := by
  have hstate : x.cpu.control.state ≠ .stopped := by
    intro hstate
    rw [(hgoverns.of_stopped hstate).2] at hstop
    cases hstop
  exact @Moment.total_next_le x Phase.left (fun phase? => if phase?.isSome then 1 else 0) hgoverns
    rfl (.inl hstate) fun phase => left_runPhase phase hstop

theorem left_le_eight (hgoverns : c.control.Governs c.loops) : c.total Phase.left ≤ 8 := by
  apply total_le hgoverns
  intro phase
  cases phase <;> simp [Phase.left]

/-- As long as the run does not end, a request to stop stays. -/
theorem stopRequested_moments (hgoverns : c.control.Governs c.loops)
    (hstop : c.control.stopRequested = true) {schedule : List Action}
    (hended : ∀ x ∈ moments schedule c, x.ended? = none) :
    (∀ x ∈ moments schedule c, x.cpu.control.stopRequested = true) ∧
      (follow schedule c).1.control.stopRequested = true := by
  have hall := governs_moments hgoverns schedule
  apply moments_induction (fun c => c.control.stopRequested = true) hstop
  intro x hx
  exact x.stopRequested_of_not_ended (hall x hx) (hended x hx)

/-- A run that has been asked to stop executes no more than one instruction, and its loop does no
more than seven phases before the one that ends it. -/
theorem countP_of_stopRequested (hgoverns : c.control.Governs c.loops)
    (hstop : c.control.stopRequested = true) {schedule : List Action}
    (hended : ∀ x ∈ moments schedule c, x.ended? = none) :
    (moments schedule c).countP Moment.executes ≤ 1 ∧
      (moments schedule c).countP Moment.isLoops ≤ 7 := by
  have hall := governs_moments hgoverns schedule
  obtain ⟨hasked, hlast⟩ := stopRequested_moments hgoverns hstop hended
  constructor
  · have hcount := countP_executes_le hgoverns fun x hx => .inl (hasked x hx)
    have hdue := due_le_one hgoverns
    omega
  · have hcount := countP_moments_le Moment.isLoops (total Phase.left)
      fun x hx => left_next (hall x hx) (hasked x hx)
    have hleft := left_le_eight hgoverns
    -- The loop is still there, since nothing else could be asked to stop.
    have hthere : 0 < (follow schedule c).1.total Phase.left := by
      have hafter := governs_follow hgoverns schedule
      have hstate : (follow schedule c).1.control.state ≠ .stopped := by
        intro hstate
        rw [(hafter.of_stopped hstate).2] at hlast
        cases hlast
      obtain ⟨⟨phase, hloops⟩, -⟩ := hafter.of_running hstate
      rw [total_of_loops Phase.left hloops]
      cases phase <;> simp [Phase.left]
    omega

/-- A paused processor executes no more than one instruction before a start takes effect. -/
theorem countP_of_paused (hgoverns : c.control.Governs c.loops)
    (hstate : c.control.state ≠ .running) {schedule : List Action}
    (hstart : ∀ x ∈ moments schedule c, x.starts = false) :
    (moments schedule c).countP Moment.executes ≤ 1 := by
  have hcount := countP_executes_le hgoverns (holds_moments hgoverns (.inr hstate) hstart)
  have hdue := due_le_one hgoverns
  omega

/-- After every schedule a loop gives the reason of the last instruction of its run. -/
theorem reason_follow (hgoverns : c.control.Governs c.loops) (hloops : c.loops = [])
    (schedule : List Action) :
    ∀ phase ∈ (follow schedule c).1.loops,
      phase.reason = .after (lastOutcome (follow schedule c).2) := by
  have hstart : c.control.Governs c.loops ∧
      ∀ phase ∈ c.loops, phase.reason = .after (lastOutcome []) := by
    refine ⟨hgoverns, ?_⟩
    rw [hloops]
    exact fun _ hmem => absurd hmem List.not_mem_nil
  refine (follow_induction (fun c notes => c.control.Governs c.loops ∧
    ∀ phase ∈ c.loops, phase.reason = .after (lastOutcome notes)) (fun _ => True) ?_ [] hstart
    schedule fun _ _ => trivial).2
  rintro c notes a - ⟨hgoverns, hreason⟩
  exact ⟨Moment.governs_next (x := ⟨c, a⟩) hgoverns,
    Moment.reason_next (x := ⟨c, a⟩) hgoverns hreason⟩

/-- A run ends for the reason of its last instruction, and the record keeps it. -/
theorem lastStop_of_ended (hgoverns : c.control.Governs c.loops) (hloops : c.loops = [])
    {schedule : List Action} {last : Action} {reason : StopReason}
    (hended : Moment.ended? ⟨(follow schedule c).1, last⟩ = some reason) :
    ((follow schedule c).1.act last).1.control.lastStop =
      some (.after (lastOutcome (follow schedule c).2)) := by
  have hafter := governs_follow hgoverns schedule
  obtain ⟨reason, hphase⟩ : ∃ reason,
      Moment.phase? ⟨(follow schedule c).1, last⟩ = some (.closing reason) := by
    rw [Moment.ended?_eq hafter] at hended
    split at hended
    · next reason hphase => exact ⟨reason, hphase⟩
    · cases hended
  obtain ⟨hlast, hnext, -⟩ := Moment.next_of_phase hafter hphase
  have hmem : Phase.closing reason ∈ (follow schedule c).1.loops := by
    rw [show (follow schedule c).1.loops = [.closing reason] from hlast]
    exact List.mem_singleton_self _
  have hreason := reason_follow hgoverns hloops schedule (.closing reason) hmem
  have hcontrol : ((follow schedule c).1.act last).1.control = .ended reason :=
    congrArg Cpu.control hnext
  rw [hcontrol, ← hreason]
  rfl

/-- Stops and pauses come at the next instruction boundary. Once a processor that is not stopped has
been asked to stop, no more than one instruction is executed until the run ends, whatever is done in
between, and the reason that is recorded is that it was asked to, unless the last instruction of the
run faulted or halted. Once a running processor has been paused, no more than one instruction is
executed until a start takes effect. -/
theorem stop_and_pause_at_boundary (m : Machine) (breakpoints : Breakpoints)
    (earlier : List Action) :
    let start : Cpu := { machine := m, breakpoints }
    let c := (follow earlier start).1
    (c.control.state ≠ .stopped →
      ∀ during : List Action, (∀ x ∈ moments during c.stop, x.ended? = none) →
        (moments during c.stop).countP Moment.executes ≤ 1 ∧
        (moments during c.stop).countP Moment.isLoops ≤ 7 ∧
        ∀ last reason, Moment.ended? ⟨(follow during c.stop).1, last⟩ = some reason →
          ((follow during c.stop).1.act last).1.control.lastStop =
            some (.after (lastOutcome (follow (earlier ++ .host .stop :: during) start).2))) ∧
    (c.control.state = .running →
      c.pause.control.state = .paused ∧
      ∀ during : List Action, (∀ x ∈ moments during c.pause, x.starts = false) →
        (moments during c.pause).countP Moment.executes ≤ 1) := by
  intro start c
  have hstart : start.control.Governs start.loops := .resting rfl rfl
  have hgoverns : c.control.Governs c.loops := governs_follow hstart earlier
  constructor
  · intro hstate during hended
    have hstopped : c.stop.control.Governs c.stop.loops :=
      Moment.governs_next (x := ⟨c, .host .stop⟩) hgoverns
    have hasked : c.stop.control.stopRequested = true := by
      rw [stop, Control.requestStop]
      split
      · next hnone => exact absurd hnone hstate
      · rfl
    obtain ⟨hexecutes, hphases⟩ := countP_of_stopRequested hstopped hasked hended
    refine ⟨hexecutes, hphases, ?_⟩
    intro last reason hlast
    have hfollow : (follow (earlier ++ .host .stop :: during) start).1 =
        (follow during c.stop).1 := by
      rw [follow_append]
      rfl
    rw [← hfollow] at hlast ⊢
    exact lastStop_of_ended hstart rfl hlast
  · intro hstate
    have hpause : c.pause.control.state = .paused := by
      rw [pause, Control.pause, hstate]
    have hpaused : c.pause.control.Governs c.pause.loops :=
      Moment.governs_next (x := ⟨c, .host .pause⟩) hgoverns
    exact ⟨hpause, fun during => countP_of_paused hpaused (by simp [hpause])⟩

/-- A processor that is asked to stop when it is about to load `A` loads it and stops, though it is
paused and started meanwhile. -/
theorem stops_after_load :
    let m : Machine := { bus := ({} : Bus).pokeAll 0 [0x10, 99, 0x01] }
    let earlier : List Action := [.host (.start true), .loop 0]
    let c := (follow earlier { machine := m }).1
    let during : List Action := [.loop 0, .host .pause, .loop 0, .host (.start true), .loop 0,
      .loop 0, .loop 0, .loop 0]
    c.control.state ≠ .stopped ∧ (∀ x ∈ moments during c.stop, x.ended? = none) ∧
      (moments during c.stop).countP Moment.executes ≤ 1 ∧
      ((follow during c.stop).1.act (.loop 0)).1.control.lastStop = some .requested := by
  intro m earlier c during
  have hstate : c.control.state ≠ .stopped := by decide +kernel
  have hended : ∀ x ∈ moments during c.stop, x.ended? = none := by decide +kernel
  have hstops := (stop_and_pause_at_boundary m {} earlier).1 hstate during hended
  refine ⟨hstate, hended, hstops.1, ?_⟩
  rw [hstops.2.2 (.loop 0) .requested (by decide +kernel)]
  decide +kernel

end Cpu

end B33
