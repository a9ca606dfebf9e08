import B33.Proofs.Cpu.Schedule
import B33.Proofs.Machine.Still

/-!
# Idle runs

An idle run comes back to the same instruction for ever. Its loop goes round through the same phases,
the machine, the breakpoints and the control record stay as they are, and observers are told of
nothing but the instruction to come. So an observer to whom this means nothing makes the same of the
run whether it is left alone now or after any number of phases more.
-/
namespace B33

namespace Cpu

variable {c : Cpu} {σ : Type}

/-- Where the loop of an idle run can be. -/
inductive Circling (c : Cpu) : Phase → Prop
  | turn : Circling c .turn
  | announcing : Circling c .announcing
  | executing : Circling c .executing
  | checking (s : Step) (hcheck : c.breakpoints.check c.machine.registers.pc s.store = none) :
      Circling c (.checking s)
  | resting : Circling c .resting

/-- What an idle run leaves in its trail. -/
inductive Murmur (c : Cpu) : Note → Prop
  | executed (s : Step) : Murmur c (.executed (.ok s))
  | told : Murmur c (.told (.before c.machine.registers.pc) c.machine)

/-- What makes a run idle, apart from where its loop is. -/
structure IsAtRest (c : Cpu) : Prop where
  still : c.machine.isStill
  turn : takeTurn c.control = .announcing
  free : c.breakpoints.check c.machine.registers.pc none = none

theorem isAtRest_of_isIdle (h : c.isIdle) : c.IsAtRest := by
  unfold isIdle at h
  split at h
  · simp only [Bool.and_eq_true, Bool.not_eq_true', beq_iff_eq, Option.isNone_iff_eq_none] at h
    obtain ⟨⟨⟨⟨-, hstop⟩, hstate⟩, hfree⟩, hstill⟩ := h
    refine ⟨hstill, ?_, hfree⟩
    simp [takeTurn, hstop, hstate]
  · cases h

/-- A phase of an idle run leads to another one of the same round and changes nothing. -/
theorem IsAtRest.runPhase (h : c.IsAtRest) {phase : Phase} (hphase : c.Circling phase) :
    ∃ next events, c.Circling next ∧ Cpu.runPhase phase c = (some next, c, events) ∧
      ∀ note ∈ phase.notes c.machine ++ events.map (.told · c.machine), c.Murmur note := by
  cases hphase with
  | turn =>
      refine ⟨.announcing, [], .announcing, ?_, by simp [Phase.notes]⟩
      rw [runPhase_turn, h.turn]
  | announcing =>
      refine ⟨.executing, _, .executing, rfl, fun note hnote => ?_⟩
      obtain rfl := List.mem_singleton.mp hnote
      exact .told
  | executing =>
      obtain ⟨s, hstep, hstore, hhalted⟩ := Machine.step_eq_of_isStill h.still
      refine ⟨.checking s, [], .checking s (by rw [hstore]; exact h.free), ?_, fun note hnote => ?_⟩
      · simp [runPhase_executing, hstep, afterStep, hhalted, outcomeEvents, Step.events, hstore]
      · simp only [Phase.notes, hstep, List.map_nil, List.append_nil] at hnote
        obtain rfl := List.mem_singleton.mp hnote
        exact .executed s
  | checking s hcheck =>
      exact ⟨.resting, [], .resting, by simp [runPhase_checking, hcheck], by simp [Phase.notes]⟩
  | resting => exact ⟨.turn, [], .turn, rfl, by simp [Phase.notes]⟩

/-- What an idle run comes to: the loop is somewhere on its round, and nothing else has changed. -/
structure GoesRound (c : Cpu) (others : List Phase) (result : Cpu × List Note) : Prop where
  place : ∃ phase, c.Circling phase ∧ result.1 = { c with loops := phase :: others }
  notes : ∀ note ∈ result.2, c.Murmur note

theorem IsAtRest.loopAct (h : c.IsAtRest) {phase : Phase} (hphase : c.Circling phase)
    (others : List Phase) :
    c.GoesRound others (Cpu.loopAct { c with loops := phase :: others } 0) := by
  obtain ⟨next, events, hnext, hrun, hnotes⟩ := h.runPhase hphase
  have hlook : ({ c with loops := phase :: others } : Cpu).loops[0]? = some phase := rfl
  rw [loopAct_eq hlook, runPhase_loops, hrun]
  exact ⟨⟨next, hnext, rfl⟩, hnotes⟩

theorem IsAtRest.follow (h : c.IsAtRest) {phase : Phase} (hphase : c.Circling phase)
    (others : List Phase) (bound : Nat) :
    c.GoesRound others
      (Cpu.follow (.replicate bound (.loop 0)) { c with loops := phase :: others }) := by
  induction bound generalizing phase with
  | zero => exact ⟨⟨phase, hphase, rfl⟩, fun note hnote => absurd hnote List.not_mem_nil⟩
  | succ bound ih =>
      obtain ⟨⟨next, hnext, hloop⟩, hnotes⟩ := h.loopAct hphase others
      obtain ⟨hplace, hlater⟩ := ih hnext
      simp only [List.replicate_succ, Cpu.follow, act, hloop]
      exact ⟨hplace, List.forall_mem_append.mpr ⟨hnotes, hlater⟩⟩

/-- An observer to whom the coming instruction means nothing makes nothing of an idle run. -/
theorem hear_eq_of_murmur {o : Observer σ} {s : σ} {notes : List Note}
    (hdeaf : (o.tell (.before c.machine.registers.pc) c.machine s).1 = s)
    (h : ∀ note ∈ notes, c.Murmur note) : hear o notes s = s := by
  induction notes with
  | nil => rfl
  | cons note rest ih =>
      have hrest := ih fun n hn => h n (List.mem_cons_of_mem note hn)
      cases h note List.mem_cons_self with
      | executed s => exact hrest
      | told =>
          refine Eq.trans ?_ hrest
          simp only [hear, List.foldl_cons, hdeaf]

/-- An idle run can be left alone. Whatever number of phases it would go on for, the machine, the
breakpoints and the control record are those it has now, and the observer makes nothing of it. -/
theorem isIdle_left_alone {o : Observer σ} {s : σ} (h : c.isIdle) {last : Step} {others : List Phase}
    (hloops : c.loops = .checking last :: others)
    (hcheck : c.breakpoints.check c.machine.registers.pc last.store = none)
    (hdeaf : (o.tell (.before c.machine.registers.pc) c.machine s).1 = s) (bound : Nat) :
    c.GoesRound others (Cpu.follow (.replicate bound (.loop 0)) c) ∧
      hear o (Cpu.follow (.replicate bound (.loop 0)) c).2 s = s := by
  have hround := (isAtRest_of_isIdle h).follow (.checking last hcheck) others bound
  rw [← hloops] at hround
  exact ⟨hround, hear_eq_of_murmur hdeaf hround.notes⟩

end Cpu

end B33
