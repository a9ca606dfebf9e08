import B33.Proofs.Cpu.Moment

/-!
# Loading in small steps

A load takes hold of the machine and of the control record and looks whether the processor is
stopped and whether the program fits. It then writes the program byte by byte, resets the machine
and forgets why the last run stopped, and lets go of both only when it returns. Until then a host
that starts, pauses or stops waits, and so does a loop that comes to one of its phases, unless it
only rests. So whatever the others do, a load comes to what it would be if it were done at once.
-/
namespace B33

/-- A program to be loaded. -/
structure Load where
  bytes : List UInt8
  origin : UInt16
  entry : UInt16

/-- Where a load is. -/
inductive Loading where
  /-- It is about to look whether the processor is stopped. -/
  | looking (l : Load)
  /-- It is about to look whether the program fits. -/
  | measuring (l : Load)
  /-- It is about to write what is left of the program from an address on. -/
  | copying (rest : List UInt8) (address entry : UInt16)
  /-- It is about to forget why the last run stopped. -/
  | forgetting

/-- A processor, and the load that holds it if one is under way. -/
structure Loader where
  cpu : Cpu
  loading : Option Loading := none

abbrev LoadReply := Except CpuError Unit

def LoadReply.notes : LoadReply → List Note
  | .ok () => [.loaded]
  | .error _ => []

/-- A turn of a schedule in small steps: the load under way does its next step, or someone acts. -/
inductive Loader.Turn where
  | proceed
  | act (a : Action)

def Action.isLoad : Action → Bool
  | .host (.load ..) => true
  | _ => false

def Action.isOnBus : Action → Bool
  | .host (.onBus _) => true
  | _ => false

/-- Whether an action needs neither the machine nor the control record. -/
def Cpu.allows (c : Cpu) : Action → Bool
  | .host (.addBreakpoint _) | .host (.removeBreakpoint _) | .host .clearBreakpoints => true
  | .loop i => c.loops[i]? = some .resting
  | _ => false

namespace Loading

/-- The next step of a load, and what it returns if it is the last one. -/
def step (c : Cpu) : Loading → Loader × List LoadReply
  | looking l =>
    if c.control.state = .stopped then (⟨c, some (measuring l)⟩, [])
    else (⟨c, none⟩, [.error .notStopped])
  | measuring l =>
    if 0x10000 < l.origin.toNat + l.bytes.length then
      (⟨c, none⟩, [.error (.bus (.programTooLarge l.origin l.bytes.length))])
    else (⟨c, some (copying l.bytes l.origin l.entry)⟩, [])
  | copying (byte :: rest) address entry =>
    (⟨c.withBus (·.poke address byte), some (copying rest (address + 1) entry)⟩, [])
  | copying [] _ entry => (⟨{ c with machine := c.machine.reset entry }, some forgetting⟩, [])
  | forgetting =>
    (⟨{ c with control := { c.control with lastStop := none } }, none⟩, [.ok ()])

/-- Whether a load can no longer fail. -/
def isSettled : Loading → Bool
  | looking _ | measuring _ => false
  | copying .. | forgetting => true

/-- The processor once a load that can no longer fail is done. -/
def finish (c : Cpu) : Loading → Cpu
  | looking _ | measuring _ => c
  | copying rest address entry =>
    { c with
      machine := { c.machine with bus := c.machine.bus.pokeAll address rest }.reset entry
      control := { c.control with lastStop := none } }
  | forgetting => { c with control := { c.control with lastStop := none } }

/-- How many steps a load has before it at most. -/
def left : Loading → Nat
  | looking l => l.bytes.length + 4
  | measuring l => l.bytes.length + 3
  | copying rest .. => rest.length + 2
  | forgetting => 1

end Loading

namespace Loader

/-- What a turn does. Who acts while a load is under way waits unless the action is allowed. -/
def turn (s : Loader) : Turn → Loader × List Note × List LoadReply
  | .proceed =>
    match s.loading with
    | none => (s, [], [])
    | some loading =>
      let (s, replies) := loading.step s.cpu
      (s, replies.flatMap LoadReply.notes, replies)
  | .act a =>
    match s.loading, a with
    | none, .host (.load bytes origin entry) =>
      ({ s with loading := some (.looking ⟨bytes, origin, entry⟩) }, [], [])
    | none, a => (⟨(s.cpu.act a).1, none⟩, (s.cpu.act a).2, [])
    | some loading, a =>
      if s.cpu.allows a then (⟨(s.cpu.act a).1, some loading⟩, (s.cpu.act a).2, [])
      else (s, [], [])

/-- Follows a schedule in small steps. -/
def follow : List Turn → Loader → Loader × List Note × List LoadReply
  | [], s => (s, [], [])
  | t :: rest, s =>
    let (s, notes, replies) := s.turn t
    let (s, laterNotes, laterReplies) := follow rest s
    (s, notes ++ laterNotes, replies ++ laterReplies)

/-- The processor as it is seen from outside: a load that can no longer fail is done. -/
def seen (s : Loader) : Cpu :=
  match s.loading with
  | none => s.cpu
  | some loading => loading.finish s.cpu

/-- What is to be noted of a load that can no longer fail. -/
def pending (s : Loader) : List Note :=
  match s.loading with
  | none => []
  | some loading => if loading.isSettled then [.loaded] else []

/-- The control record goes with the loops, and a load that has looked has found it stopped. -/
structure Sound (s : Loader) : Prop where
  governs : s.cpu.control.Governs s.cpu.loops
  stopped : ∀ loading ∈ s.loading, (∀ l, loading ≠ .looking l) → s.cpu.control.state = .stopped

namespace Sound

variable {c : Cpu} (h : c.control.Governs c.loops)
include h

theorem of_none : (⟨c, none⟩ : Loader).Sound := ⟨h, by simp⟩

theorem of_looking (l : Load) : (⟨c, some (.looking l)⟩ : Loader).Sound := by
  refine ⟨h, fun loading hloading hne => ?_⟩
  cases hloading
  exact absurd rfl (hne l)

end Sound

theorem sound_of_stopped {s : Loader} (h : s.cpu.control.Governs s.cpu.loops)
    (hstate : s.cpu.control.state = .stopped) : s.Sound := ⟨h, fun _ _ _ => hstate⟩

end Loader

theorem Machine.load_of_fits {m : Machine} {l : Load}
    (hfits : ¬0x10000 < l.origin.toNat + l.bytes.length) :
    m.load l.origin l.bytes l.entry =
      .ok ({ m with bus := m.bus.pokeAll l.origin l.bytes }.reset l.entry) := by
  rw [load, Bus.load, if_neg hfits]

/-- What a load comes to does not depend on breakpoints or loops. -/
theorem Loading.machine_finish_congr (loading : Loading) {c d : Cpu} (h : c.machine = d.machine) :
    (loading.finish c).machine = (loading.finish d).machine := by
  cases loading with
  | looking | measuring | forgetting => exact h
  | copying rest address entry =>
      unfold finish
      rw [h]

namespace Cpu

variable {c : Cpu} {a : Action}

/-- What an action does that changes breakpoints and nothing else. -/
def Rearms (a : Action) (f : Breakpoints → Breakpoints) : Prop :=
  ∀ c : Cpu, c.act a = ({ c with breakpoints := f c.breakpoints }, [])

/-- An allowed action changes breakpoints, or lets a loop end its rest. -/
theorem act_of_allows (h : c.allows a = true) :
    (∃ f, Rearms a f) ∨
      ∃ phase loops, phase ∈ c.loops ∧ c.act a = ({ c with loops }, []) := by
  cases a with
  | host a =>
      cases a with
      | addBreakpoint b => exact .inl ⟨(·.add b), fun _ => rfl⟩
      | removeBreakpoint b => exact .inl ⟨(·.remove b), fun _ => rfl⟩
      | clearBreakpoints => exact .inl ⟨fun _ => {}, fun _ => rfl⟩
      | start | pause | stop | load | onBus => cases h
  | loop i =>
      have hphase : c.loops[i]? = some .resting := by simpa [allows] using h
      exact .inr ⟨.resting, _, List.mem_of_getElem? hphase, loopAct_eq hphase⟩

theorem act_eq_of_allows (h : c.allows a = true) :
    (c.act a).1.machine = c.machine ∧ (c.act a).1.control = c.control ∧ (c.act a).2 = [] := by
  obtain ⟨f, hrearms⟩ | ⟨phase, loops, -, hact⟩ := act_of_allows h
  · rw [hrearms]
    exact ⟨rfl, rfl, rfl⟩
  · rw [hact]
    exact ⟨rfl, rfl, rfl⟩

/-- Where there is no loop an allowed action changes breakpoints. -/
theorem rearms_of_stopped (hgoverns : c.control.Governs c.loops)
    (hstate : c.control.state = .stopped) (h : c.allows a = true) : ∃ f, Rearms a f := by
  obtain hrearms | ⟨phase, loops, hphase, -⟩ := act_of_allows h
  · exact hrearms
  · rw [(hgoverns.of_stopped hstate).1] at hphase
    cases hphase

/-- A load that finds a stopped processor and fits is done at once what its steps come to. -/
theorem hostAct_load_of_fits {l : Load} (hstate : c.control.state = .stopped)
    (hfits : ¬0x10000 < l.origin.toNat + l.bytes.length) :
    c.hostAct (.load l.bytes l.origin l.entry) =
      ((Loading.copying l.bytes l.origin l.entry).finish c, [.loaded]) := by
  have hload : c.load l.bytes l.origin l.entry =
      .ok ((Loading.copying l.bytes l.origin l.entry).finish c) := by
    unfold load
    split
    · rw [Machine.load_of_fits hfits]
      rfl
    · next hne => exact absurd hstate hne
  rw [hostAct, hload]

end Cpu

namespace Loading

theorem left_pos (loading : Loading) : 0 < loading.left := by
  cases loading <;> exact Nat.succ_pos _

/-- A step is the last one of its load, or leaves fewer before it. -/
theorem step_cases (loading : Loading) (c : Cpu) :
    (∃ reply, (loading.step c).2 = [reply] ∧ (loading.step c).1.loading = none) ∨
      ((loading.step c).2 = [] ∧ ∃ next, (loading.step c).1.loading = some next ∧
        next.left < loading.left) := by
  cases loading with
  | looking l =>
      rw [step]
      split
      · exact .inr ⟨rfl, _, rfl, Nat.lt_succ_self _⟩
      · exact .inl ⟨_, rfl, rfl⟩
  | measuring l =>
      rw [step]
      split
      · exact .inl ⟨_, rfl, rfl⟩
      · exact .inr ⟨rfl, _, rfl, Nat.lt_succ_self _⟩
  | copying rest address entry =>
      cases rest with
      | nil => exact .inr ⟨rfl, _, rfl, Nat.lt_succ_self 1⟩
      | cons byte rest => exact .inr ⟨rfl, _, rfl, Nat.lt_succ_self _⟩
  | forgetting => exact .inl ⟨_, rfl, rfl⟩

end Loading

namespace Loader

variable {s : Loader}

theorem turn_act_of_none (h : s.loading = none) {a : Action} (ha : a.isLoad = false) :
    s.turn (.act a) = (⟨(s.cpu.act a).1, none⟩, (s.cpu.act a).2, []) := by
  obtain ⟨c, _⟩ := s
  subst h
  cases a with
  | host a =>
      cases a with
      | load => cases ha
      | _ => rfl
  | loop i => rfl

theorem turn_load_of_none (h : s.loading = none) (l : Load) :
    s.turn (.act (.host (.load l.bytes l.origin l.entry))) =
      (⟨s.cpu, some (.looking l)⟩, [], []) := by
  obtain ⟨c, _⟩ := s
  subst h
  rfl

section
variable {loading : Loading} (h : s.loading = some loading)
include h

theorem turn_act_of_some (a : Action) :
    s.turn (.act a) =
      if s.cpu.allows a then (⟨(s.cpu.act a).1, some loading⟩, (s.cpu.act a).2, [])
      else (s, [], []) := by
  obtain ⟨c, _⟩ := s
  subst h
  rfl

theorem turn_proceed :
    s.turn .proceed = ((loading.step s.cpu).1, (loading.step s.cpu).2.flatMap LoadReply.notes,
      (loading.step s.cpu).2) := by
  obtain ⟨c, _⟩ := s
  subst h
  rfl

end

theorem follow_cons (t : Turn) (rest : List Turn) (s : Loader) :
    follow (t :: rest) s =
      ((follow rest (s.turn t).1).1, (s.turn t).2.1 ++ (follow rest (s.turn t).1).2.1,
        (s.turn t).2.2 ++ (follow rest (s.turn t).1).2.2) := rfl

/-- What a turn is seen as: actions of a schedule that loads at once. -/
structure Sees (s after : Loader) (notes : List Note) (schedule : List Action) : Prop where
  sound : after.Sound
  follow_eq : (Cpu.follow schedule s.seen).1 = after.seen
  notes_eq : s.pending ++ (Cpu.follow schedule s.seen).2 = notes ++ after.pending

/-- A turn after which all is as it was is seen as nothing. -/
theorem sees_nothing {after : Loader} (h : after.Sound) (hseen : s.seen = after.seen)
    (hpending : s.pending = after.pending) : s.Sees after [] [] :=
  ⟨h, hseen, by rw [hpending, Cpu.follow, List.append_nil, List.nil_append]⟩

theorem sees_proceed (h : s.Sound) :
    ∃ schedule, s.Sees (s.turn .proceed).1 (s.turn .proceed).2.1 schedule ∧
      ∀ a ∈ schedule, a.isLoad = true := by
  obtain ⟨c, _ | loading⟩ := s
  · exact ⟨[], sees_nothing h rfl rfl, List.forall_mem_nil _⟩
  · rw [turn_proceed rfl]
    cases loading with
    | looking l =>
        rw [Loading.step]
        split
        · next hstate =>
          exact ⟨[], sees_nothing (sound_of_stopped h.governs hstate) rfl rfl,
            List.forall_mem_nil _⟩
        · exact ⟨[], sees_nothing (.of_none h.governs) rfl rfl, List.forall_mem_nil _⟩
    | measuring l =>
        have hstate := h.stopped _ rfl (by simp)
        rw [Loading.step]
        split
        · exact ⟨[], sees_nothing (.of_none h.governs) rfl rfl, List.forall_mem_nil _⟩
        · next hfits =>
          -- From here on the load can no longer fail, so this is when it is seen to be done.
          have hload := Cpu.hostAct_load_of_fits hstate hfits
          refine ⟨[.host (.load l.bytes l.origin l.entry)],
            ⟨sound_of_stopped h.governs hstate, ?_, ?_⟩, by simp [Action.isLoad]⟩
          · exact congrArg Prod.fst hload
          · simp only [Cpu.follow, Cpu.act, seen, Loading.finish, hload]
            rfl
    | copying rest address entry =>
        have hstate := h.stopped _ rfl (by simp)
        cases rest with
        | nil =>
            exact ⟨[], sees_nothing (sound_of_stopped h.governs hstate) rfl rfl,
              List.forall_mem_nil _⟩
        | cons byte rest =>
            exact ⟨[], sees_nothing (sound_of_stopped h.governs hstate) rfl rfl,
              List.forall_mem_nil _⟩
    | forgetting =>
        have hstate := h.stopped _ rfl (by simp)
        have hgoverns := Cpu.governs_of_moves (.load hstate) h.governs
        exact ⟨[], ⟨.of_none hgoverns, rfl, rfl⟩, List.forall_mem_nil _⟩

theorem sees_act (h : s.Sound) (a : Action) :
    ∃ schedule, s.Sees (s.turn (.act a)).1 (s.turn (.act a)).2.1 schedule ∧
      ∀ b ∈ schedule, b = a := by
  obtain ⟨c, loading?⟩ := s
  have hgoverns := Cpu.governs_of_moves (c.moves_act a) h.governs
  cases loading? with
  | none =>
      cases hload : a.isLoad with
      | false =>
          rw [turn_act_of_none rfl hload]
          exact ⟨[a], ⟨.of_none hgoverns, rfl, rfl⟩, by simp⟩
      | true =>
          obtain ⟨l, rfl⟩ : ∃ l : Load, a = .host (.load l.bytes l.origin l.entry) := by
            cases a with
            | host a =>
                cases a with
                | load bytes origin entry => exact ⟨⟨bytes, origin, entry⟩, rfl⟩
                | _ => cases hload
            | loop => cases hload
          rw [turn_load_of_none rfl]
          exact ⟨[], sees_nothing (.of_looking h.governs l) rfl rfl, List.forall_mem_nil _⟩
  | some loading =>
      rw [turn_act_of_some rfl]
      split
      · next hallows =>
        refine ⟨[a], ?_, by simp⟩
        cases hsettled : loading.isSettled with
        | false =>
            have hfinish (c : Cpu) : loading.finish c = c := by
              cases loading with
              | looking | measuring => rfl
              | copying | forgetting => cases hsettled
            refine ⟨⟨hgoverns, fun l hl hne => ?_⟩, ?_, ?_⟩
            · have hstate := h.stopped l hl hne
              obtain ⟨f, hrearms⟩ := Cpu.rearms_of_stopped h.governs hstate hallows
              rw [hrearms]
              exact hstate
            · simp only [Cpu.follow, seen, hfinish]
            · simp [Cpu.follow, seen, hfinish, pending, hsettled]
        | true =>
            have hlooked (l : Load) : loading ≠ .looking l := by
              rintro rfl
              cases hsettled
            have hstate := h.stopped _ rfl hlooked
            -- Only breakpoints can change now, and the load does not look at them.
            obtain ⟨f, hrearms⟩ := Cpu.rearms_of_stopped h.governs hstate hallows
            refine ⟨⟨hgoverns, fun _ _ _ => ?_⟩, ?_, ?_⟩
            · rw [hrearms]
              exact hstate
            · simp only [Cpu.follow, seen, hrearms _]
              cases loading with
              | looking | measuring => cases hsettled
              | copying | forgetting => rfl
            · simp [Cpu.follow, seen, pending, hrearms _]
      · exact ⟨[], sees_nothing h rfl rfl, List.forall_mem_nil _⟩

theorem Sees.trans {middle after : Loader} {notes later : List Note} {first second : List Action}
    (h : s.Sees middle notes first) (hlater : middle.Sees after later second) :
    s.Sees after (notes ++ later) (first ++ second) := by
  refine ⟨hlater.sound, ?_, ?_⟩
  · rw [Cpu.follow_append, h.follow_eq]
    exact hlater.follow_eq
  · rw [Cpu.follow_append, h.follow_eq]
    calc s.pending ++ ((Cpu.follow first s.seen).2 ++ (Cpu.follow second middle.seen).2)
        = notes ++ (middle.pending ++ (Cpu.follow second middle.seen).2) := by
          rw [← List.append_assoc, h.notes_eq, List.append_assoc]
      _ = notes ++ later ++ after.pending := by rw [hlater.notes_eq, List.append_assoc]

theorem sees_turn (h : s.Sound) (t : Turn) :
    ∃ schedule, s.Sees (s.turn t).1 (s.turn t).2.1 schedule ∧
      ∀ a ∈ schedule, a.isLoad = true ∨ t = .act a := by
  cases t with
  | proceed =>
      obtain ⟨schedule, hsees, hall⟩ := sees_proceed h
      exact ⟨schedule, hsees, fun a ha => .inl (hall a ha)⟩
  | act a =>
      obtain ⟨schedule, hsees, hall⟩ := sees_act h a
      exact ⟨schedule, hsees, fun b hb => .inr (congrArg Turn.act (hall b hb).symm)⟩

/-- A schedule in small steps is seen as one that loads at once. -/
theorem sees_follow (h : s.Sound) (turns : List Turn) :
    ∃ schedule, s.Sees (follow turns s).1 (follow turns s).2.1 schedule ∧
      ∀ a ∈ schedule, a.isLoad = true ∨ .act a ∈ turns := by
  induction turns generalizing s with
  | nil => exact ⟨[], sees_nothing h rfl rfl, List.forall_mem_nil _⟩
  | cons t rest ih =>
      obtain ⟨first, hfirst, hall⟩ := sees_turn h t
      obtain ⟨second, hsecond, hrest⟩ := ih hfirst.sound
      refine ⟨first ++ second, hfirst.trans hsecond, fun a ha => ?_⟩
      obtain ha | ha := List.mem_append.mp ha
      · refine (hall a ha).imp_right fun heq => ?_
        rw [heq]
        exact List.mem_cons_self
      · exact (hrest a ha).imp_right (List.mem_cons_of_mem t)

end Loader

/-- What a load that found a processor has done to it when it returns. -/
inductive Load.Returns (l : Load) (found after : Cpu) : LoadReply → Prop
  | ok (hstate : found.control.state = .stopped) (hloops : found.loops = [])
      (hload : found.machine.load l.origin l.bytes l.entry = .ok after.machine)
      (hregisters : after.machine.registers = { pc := l.entry })
      (hstack : after.machine.stack = [])
      (hbus : after.machine.bus = found.machine.bus.pokeAll l.origin l.bytes)
      (hcontrol : after.control = {}) (hafter : after.loops = []) : Returns l found after (.ok ())
  | notStopped (hstate : found.control.state ≠ .stopped) (hmachine : after.machine = found.machine)
      (hcontrol : after.control = found.control) :
      Returns l found after (.error .notStopped)
  | tooLarge (hstate : found.control.state = .stopped)
      (hlarge : 0x10000 < l.origin.toNat + l.bytes.length)
      (hmachine : after.machine = found.machine) (hcontrol : after.control = found.control) :
      Returns l found after (.error (.bus (.programTooLarge l.origin l.bytes.length)))

/-- Where a load is that found a processor and has not returned. -/
inductive Load.Under (l : Load) (found : Cpu) : Loader → Prop
  | looking (c : Cpu) (hmachine : c.machine = found.machine)
      (hcontrol : c.control = found.control) : Under l found ⟨c, some (.looking l)⟩
  | measuring (c : Cpu) (hmachine : c.machine = found.machine)
      (hcontrol : c.control = found.control) (hstate : found.control.state = .stopped) :
      Under l found ⟨c, some (.measuring l)⟩
  | settled (c : Cpu) (loading : Loading) (hsettled : loading.isSettled = true)
      (hfits : ¬0x10000 < l.origin.toNat + l.bytes.length)
      (hstate : found.control.state = .stopped) (hcontrol : c.control = found.control)
      (hmachine : (loading.finish c).machine =
        { found.machine with bus := found.machine.bus.pokeAll l.origin l.bytes }.reset l.entry) :
      Under l found ⟨c, some loading⟩

theorem Load.returns_ok {l : Load} {found after : Cpu}
    (hfound : found.control.Governs found.loops) (hstate : found.control.state = .stopped)
    (hfits : ¬0x10000 < l.origin.toNat + l.bytes.length)
    (hmachine : after.machine =
      { found.machine with bus := found.machine.bus.pokeAll l.origin l.bytes }.reset l.entry)
    (hcontrol : after.control = { found.control with lastStop := none })
    (hloops : after.loops = []) : l.Returns found after (.ok ()) := by
  obtain ⟨hnone, hstop⟩ := hfound.of_stopped hstate
  refine .ok hstate hnone ?_ (by rw [hmachine]; rfl) (by rw [hmachine]; rfl)
    (by rw [hmachine]; rfl) ?_ hloops
  · rw [hmachine]
    exact Machine.load_of_fits hfits
  · simp only [hcontrol, hstate, hstop]

namespace Loader

variable {l : Load} {found : Cpu} {s : Loader}

theorem under_act (hunder : l.Under found s) (a : Action) :
    l.Under found (s.turn (.act a)).1 ∧ (s.turn (.act a)).2 = ([], []) := by
  obtain ⟨loading, hloading⟩ : ∃ loading, s.loading = some loading := by
    cases hunder <;> exact ⟨_, rfl⟩
  rw [turn_act_of_some hloading]
  split
  · next hallows =>
    obtain ⟨hmachine, hcontrol, hnotes⟩ := Cpu.act_eq_of_allows hallows
    refine ⟨?_, by rw [hnotes]⟩
    cases hunder with
    | looking c hsame hrecord =>
        cases hloading
        exact .looking _ (hmachine.trans hsame) (hcontrol.trans hrecord)
    | measuring c hsame hrecord hstate =>
        cases hloading
        exact .measuring _ (hmachine.trans hsame) (hcontrol.trans hrecord) hstate
    | settled c loading hsettled hfits hstate hrecord hdone =>
        cases hloading
        exact .settled _ _ hsettled hfits hstate (hcontrol.trans hrecord)
          ((Loading.machine_finish_congr loading hmachine).trans hdone)
  · exact ⟨hunder, rfl⟩

theorem under_proceed (h : s.Sound) (hfound : found.control.Governs found.loops)
    (hunder : l.Under found s) :
    (l.Under found (s.turn .proceed).1 ∧ (s.turn .proceed).2 = ([], [])) ∨
      ∃ reply, (s.turn .proceed).2.2 = [reply] ∧ (s.turn .proceed).1.loading = none ∧
        l.Returns found (s.turn .proceed).1.cpu reply := by
  cases hunder with
  | looking c hmachine hcontrol =>
      rw [turn_proceed rfl, Loading.step]
      split
      · next hstate => exact .inl ⟨.measuring c hmachine hcontrol (hcontrol ▸ hstate), rfl⟩
      · next hstate =>
        exact .inr ⟨_, rfl, rfl, .notStopped (hcontrol ▸ hstate) hmachine hcontrol⟩
  | measuring c hmachine hcontrol hstate =>
      rw [turn_proceed rfl, Loading.step]
      split
      · next hlarge => exact .inr ⟨_, rfl, rfl, .tooLarge hstate hlarge hmachine hcontrol⟩
      · next hfits =>
        refine .inl ⟨.settled c _ rfl hfits hstate hcontrol ?_, rfl⟩
        rw [← hmachine]
        rfl
  | settled c loading hsettled hfits hstate hcontrol hmachine =>
      rw [turn_proceed rfl]
      cases loading with
      | looking | measuring => cases hsettled
      | copying rest address entry =>
          cases rest with
          | nil => exact .inl ⟨.settled _ _ rfl hfits hstate hcontrol hmachine, rfl⟩
          | cons byte rest => exact .inl ⟨.settled _ _ rfl hfits hstate hcontrol hmachine, rfl⟩
      | forgetting =>
          refine .inr ⟨.ok (), rfl, rfl, ?_⟩
          have hloops := (h.governs.of_stopped (hcontrol.symm ▸ hstate)).1
          exact Load.returns_ok hfound hstate hfits hmachine (by rw [← hcontrol]; rfl) hloops

/-- Until a load returns it stays where it is known to be, and nothing is noted. -/
theorem under_follow (h : s.Sound) (hfound : found.control.Governs found.loops)
    (hunder : l.Under found s) {during : List Turn} (hreplies : (follow during s).2.2 = []) :
    l.Under found (follow during s).1 ∧ (follow during s).2.1 = [] := by
  induction during generalizing s with
  | nil => exact ⟨hunder, rfl⟩
  | cons t rest ih =>
      rw [follow_cons] at hreplies ⊢
      obtain ⟨hfirst, hrest⟩ := List.append_eq_nil_iff.mp hreplies
      obtain ⟨schedule, hsees, -⟩ := sees_turn h t
      obtain ⟨hnext, hnone⟩ : l.Under found (s.turn t).1 ∧ (s.turn t).2 = ([], []) := by
        cases t with
        | act a => exact under_act hunder a
        | proceed =>
            refine (under_proceed h hfound hunder).resolve_right ?_
            rintro ⟨reply, hreply, -⟩
            rw [hreply] at hfirst
            cases hfirst
      obtain ⟨hend, hnotes⟩ := ih hsees.sound hnext hrest
      exact ⟨hend, by simp only [hnone, hnotes, List.append_nil]⟩

theorem replies_of_none (h : s.loading = none) (n : Nat) :
    (follow (List.replicate n .proceed) s).2.2 = [] := by
  have hturn : s.turn .proceed = (s, [], []) := by simp only [turn, h]
  induction n with
  | zero => rfl
  | succ n ih =>
      rw [List.replicate_succ, follow_cons, hturn]
      exact ih

/-- A load returns after no more steps of its own than it has before it. -/
theorem exists_reply {loading : Loading} (h : s.loading = some loading) {n : Nat}
    (hn : loading.left ≤ n) :
    ∃ reply, (follow (List.replicate n .proceed) s).2.2 = [reply] := by
  induction n generalizing s loading with
  | zero =>
      have hpos := loading.left_pos
      omega
  | succ n ih =>
      rw [List.replicate_succ, follow_cons, turn_proceed h]
      dsimp only
      obtain ⟨reply, hreply, hnone⟩ | ⟨hreply, next, hnext, hless⟩ := loading.step_cases s.cpu
      · exact ⟨reply, by rw [hreply, replies_of_none hnone, List.append_nil]⟩
      · rw [hreply, List.nil_append]
        exact ih hnext (by omega)

end Loader

/-- Without a run there is nothing to note but runs that there was no room for. -/
theorem History.of_no_run {m : Machine} {n : Nat} {stage : Stage} {notes : List Note}
    (h : History m n stage notes) (hnone : .began ∉ notes) :
    n = 0 ∧ stage = .idle ∧ ∀ note ∈ notes, note = .refused := by
  induction h with
  | nil => exact ⟨rfl, rfl, List.forall_mem_nil _⟩
  | begin => simp at hnone
  | refuse _ ih =>
      obtain ⟨hn, hstage, hall⟩ := ih fun h => hnone (List.mem_append_left _ h)
      refine ⟨hn, rfl, fun note hnote => ?_⟩
      obtain hnote | hnote := List.mem_append.mp hnote
      · exact hall note hnote
      · exact List.mem_singleton.mp hnote
  | announce _ ih | fault _ _ _ ih | halt _ _ _ _ ih | execute _ _ _ _ ih | hit _ _ _ _ ih
  | tell _ _ ih | close _ _ ih =>
      cases (ih fun h => hnone (List.mem_append_left _ h)).2.1
  | pass _ _ ih | request _ ih => cases (ih hnone).2.1

namespace Cpu

variable {c : Cpu} {m : Machine} {n : Nat} {stage : Stage} {notes : List Note}

/-- A load that is refused leaves the machine to the loop. -/
theorem Records.act (h : Records m c n stage notes) {a : Action} (hbus : a.isOnBus = false)
    (hload : .loaded ∉ (c.act a).2) :
    ∃ n stage, Records m (c.act a).1 n stage (notes ++ (c.act a).2) := by
  cases a with
  | loop i => exact h.loopAct i
  | host a =>
      cases a with
      | start | pause | stop | addBreakpoint | removeBreakpoint | clearBreakpoints =>
          exact ⟨n, h.hostAct rfl⟩
      | onBus => cases hbus
      | load bytes origin entry =>
          refine ⟨n, stage, ?_⟩
          rw [Cpu.act, Cpu.hostAct] at hload ⊢
          split at hload
          · exact absurd List.mem_cons_self hload
          · rwa [List.append_nil]

/-- As long as no load succeeds and no host acts on the bus, the loop does the machine's steps. -/
theorem Records.follow_loads (h : Records m c n stage notes) {schedule : List Action}
    (hbus : ∀ a ∈ schedule, a.isOnBus = false) (hload : .loaded ∉ (Cpu.follow schedule c).2) :
    ∃ n stage, Records m (Cpu.follow schedule c).1 n stage
      (notes ++ (Cpu.follow schedule c).2) := by
  induction schedule generalizing c n stage notes with
  | nil => exact ⟨n, stage, by rwa [Cpu.follow, List.append_nil]⟩
  | cons a rest ih =>
      rw [Cpu.follow] at hload ⊢
      dsimp only at hload ⊢
      rw [List.mem_append, not_or] at hload
      obtain ⟨n, stage, hnext⟩ := h.act (hbus a List.mem_cons_self) hload.1
      rw [← List.append_assoc]
      exact ih hnext (fun b hb => hbus b (List.mem_cons_of_mem a hb)) hload.2

/-- What a processor is like that has not begun a run. -/
theorem Records.of_no_run (h : Records m c n stage notes) (hnone : .began ∉ notes)
    (hlast : c.control.lastStop = lastReason none notes) :
    c.machine = m ∧ c.loops = [] ∧ c.control = {} := by
  obtain ⟨rfl, rfl, hall⟩ := h.history.of_no_run hnone
  have hreason : lastReason none notes = none := by
    clear hlast hnone h
    induction notes with
    | nil => rfl
    | cons note rest ih =>
        obtain rfl := hall note List.mem_cons_self
        exact ih fun note hnote => hall note (List.mem_cons_of_mem _ hnote)
  have hloops : c.loops = [] := by
    have hfits := h.fits
    generalize c.loops = loops at hfits
    cases hfits
    rfl
  refine ⟨h.machine_eq, hloops, ?_⟩
  have hgoverns := h.governs
  rw [hloops] at hgoverns
  cases hgoverns with
  | resting hstate hstop =>
      rw [hreason] at hlast
      generalize c.control = k at hstate hstop hlast
      cases k
      simp_all

end Cpu

namespace Loader

/-- After a load, the loop does the steps of the machine that was loaded, and a run begins with that
machine, unless another program is loaded first. -/
theorem follow_loaded {loaded : Loader} (hnone : loaded.loading = none)
    (hcontrol : loaded.cpu.control = {}) (hloops : loaded.cpu.loops = []) {later : List Turn}
    (hbus : ∀ a, .act a ∈ later → a.isOnBus = false) (hload : .loaded ∉ (follow later loaded).2.1)
    (hend : (follow later loaded).1.loading = none) :
    ∃ n stage, Cpu.Records loaded.cpu.machine (follow later loaded).1.cpu n stage
        (follow later loaded).2.1 ∧
      (.began ∉ (follow later loaded).2.1 →
        (follow later loaded).1.cpu.machine = loaded.cpu.machine ∧
          (follow later loaded).1.cpu.loops = [] ∧ (follow later loaded).1.cpu.control = {}) := by
  have hsound : loaded.Sound := by
    refine ⟨?_, by simp [hnone]⟩
    rw [hcontrol, hloops]
    exact .resting rfl rfl
  obtain ⟨schedule, hsees, hall⟩ := sees_follow hsound later
  have hseen : loaded.seen = loaded.cpu := by simp only [seen, hnone]
  have hafter : (Cpu.follow schedule loaded.cpu).1 = (follow later loaded).1.cpu := by
    have h := hsees.follow_eq
    rw [hseen] at h
    simpa only [seen, hend] using h
  have hnotes : (Cpu.follow schedule loaded.cpu).2 = (follow later loaded).2.1 := by
    have h := hsees.notes_eq
    rw [hseen] at h
    simpa only [pending, hnone, hend, List.nil_append, List.append_nil] using h
  have hstart : Cpu.Records loaded.cpu.machine loaded.cpu 0 .idle [] :=
    ⟨.nil, rfl, by rw [hloops]; exact .idle, hsound.governs⟩
  have hquiet (a : Action) (ha : a ∈ schedule) : a.isOnBus = false := by
    obtain hisLoad | hturn := hall a ha
    · cases a with
      | loop => rfl
      | host a =>
          cases a with
          | onBus => cases hisLoad
          | _ => rfl
    · exact hbus a hturn
  obtain ⟨n, stage, hrecords⟩ := hstart.follow_loads hquiet (hnotes ▸ hload)
  have hlast := Cpu.lastStop_follow loaded.cpu schedule
  rw [hcontrol] at hlast
  rw [List.nil_append, hafter, hnotes] at hrecords
  rw [hafter, hnotes] at hlast
  exact ⟨n, stage, hrecords, fun hbegan => hrecords.of_no_run hbegan hlast⟩

theorem turn_start_of_stopped {s : Loader} (hnone : s.loading = none)
    (hloops : s.cpu.loops = []) (hcontrol : s.cpu.control = {}) :
    s.turn (.act (.host (.start true))) =
      (⟨{ s.cpu with control := .begun, loops := [.turn] }, none⟩, [.began], []) := by
  rw [turn_act_of_none hnone rfl, Cpu.act, Cpu.hostAct_start_of_stopped (by rw [hcontrol]), hloops]
  rfl

theorem sound_follow (m : Machine) (breakpoints : Breakpoints) (turns : List Turn) :
    (follow turns { cpu := { machine := m, breakpoints } }).1.Sound := by
  obtain ⟨schedule, hsees, -⟩ :=
    sees_follow (s := { cpu := { machine := m, breakpoints } }) (.of_none (.resting rfl rfl)) turns
  exact hsees.sound

/-- Whatever else is done to a processor, a load that returns has done all that it is for or
nothing. Nothing is noted while it is under way. After a load that has succeeded the loop does the
steps of the machine that was loaded, and the next run begins with just that machine, unless another
program is loaded first. -/
theorem load_atomic (m : Machine) (breakpoints : Breakpoints) (before during : List Turn) (l : Load)
    (reply : LoadReply) :
    let found := (follow before { cpu := { machine := m, breakpoints } }).1
    let inside := follow (.act (.host (.load l.bytes l.origin l.entry)) :: during) found
    let after := (inside.1.turn .proceed).1
    found.loading = none → inside.2.2 = [] → (inside.1.turn .proceed).2.2 = [reply] →
      l.Returns found.cpu after.cpu reply ∧ after.loading = none ∧ inside.2.1 = [] ∧
      (reply = .ok () → ∀ later : List Turn, (∀ a, .act a ∈ later → a.isOnBus = false) →
        let next := follow later after
        .loaded ∉ next.2.1 → next.1.loading = none →
          (∃ n stage, History after.cpu.machine n stage next.2.1 ∧
            next.1.cpu.machine = after.cpu.machine.after n ∧
            next.2.1.filterMap Note.executed? =
              (List.range n).map fun k => (after.cpu.machine.after k).step.1) ∧
          (.began ∉ next.2.1 → next.1.cpu.machine = after.cpu.machine ∧
            next.1.turn (.act (.host (.start true))) =
              (⟨{ next.1.cpu with control := .begun, loops := [.turn] }, none⟩, [.began],
                []))) := by
  intro found inside after hfree hinside hreturn
  have hsound : found.Sound := sound_follow m breakpoints before
  have henter : found.turn (.act (.host (.load l.bytes l.origin l.entry))) =
      (⟨found.cpu, some (.looking l)⟩, [], []) := turn_load_of_none hfree l
  have hentered : (⟨found.cpu, some (.looking l)⟩ : Loader).Sound :=
    .of_looking hsound.governs l
  have hrun : inside = follow during ⟨found.cpu, some (.looking l)⟩ := by
    simp only [inside, follow_cons, henter, List.nil_append]
  rw [hrun] at hinside
  obtain ⟨hunder, hnotes⟩ :=
    under_follow hentered hsound.governs (.looking found.cpu rfl rfl) hinside
  obtain ⟨schedule, hsees, -⟩ := sees_follow hentered during
  rw [← hrun] at hunder hnotes hsees
  obtain ⟨hstill, hnone⟩ | ⟨returned, hreply, hafter, hreturns⟩ :=
    under_proceed hsees.sound hsound.governs hunder
  · rw [hnone] at hreturn
    cases hreturn
  · obtain rfl : returned = reply := List.singleton_inj.mp (hreply.symm.trans hreturn)
    refine ⟨hreturns, hafter, hnotes, ?_⟩
    rintro rfl later hbus next hload hend
    cases hreturns with
    | ok _ _ _ _ _ _ hcontrol hloops =>
        obtain ⟨n, stage, hrecords, hfirst⟩ :=
          follow_loaded hafter hcontrol hloops hbus hload hend
        refine ⟨⟨n, stage, hrecords.history, hrecords.machine_eq, hrecords.history.executed_eq⟩,
          fun hbegan => ?_⟩
        obtain ⟨hmachine, hnoloops, hclear⟩ := hfirst hbegan
        exact ⟨hmachine, turn_start_of_stopped hend hnoloops hclear⟩

/-- A host that starts while a program is being copied has to wait. -/
theorem load_atomic_against_start :
    let l : Load := { bytes := [0x4C, 0x00], origin := 0x4000, entry := 0x4000 }
    let during : List Turn :=
      [.proceed, .proceed, .proceed, .act (.host (.start true)), .proceed, .proceed]
    let inside := follow (.act (.host (.load l.bytes l.origin l.entry)) :: during) { cpu := {} }
    inside.2.2 = [] ∧ (inside.1.turn .proceed).2.2 = [.ok ()] ∧
      l.Returns {} (inside.1.turn .proceed).1.cpu (.ok ()) :=
  ⟨rfl, rfl, (load_atomic .standard {} [] _ _ (.ok ()) rfl rfl rfl).1⟩

end Loader

end B33
