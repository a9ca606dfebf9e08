import B33.Proofs.Bus.Sound
import B33.Proofs.Machine.Breakpoint
import B33.Proofs.Machine.Fault

/-!
# The sound of a running machine

A host and a program reach the sound in many ways: a byte or a word that is stored, of which one half
may fall on the neighbouring address, or a program that is loaded over it. Whatever they do, the
tones are those of the bytes that came to its address, and no read, reset or fault is heard.
-/
namespace B33.Machine
open Bus

/-- What can be done with a machine. -/
inductive Operation where
  | act (action : Bus.Action)
  | access (access : Access)
  | takeTones
  | step
  | load (origin : UInt16) (bytes : List UInt8) (entry : UInt16)
  | reset (entry : UInt16)
  | setRegisters (registers : RegisterFile)

/-- The bytes that an instruction reads through its operand, each with its address. -/
def operandAnswer (m : Machine) (p : Prepared) : List (UInt16 × UInt8) :=
  match p.argument, p.instruction.mnemonic.reader? with
  | .address a, some r => (Width.ofRegister r).parts a (m.read (.ofRegister r) a).1
  | _, _ => []

/-- The bytes that a step reads, each with its address: the instruction, as far as it is read, and
what its operand means. -/
def stepAnswer (m : Machine) : List (UInt16 × UInt8) :=
  let length := ((Instruction.decode m.fetch.1).map (·.length)).getD 1
  bytesFrom m.registers.pc (m.fetchBytes length).1 ++
    match m.prepare with
    | (.ok p, read) => read.operandAnswer p
    | (.error _, _) => []

namespace Operation

/-- The machine after an operation. A load that is refused leaves it. -/
def after (m : Machine) : Operation → Machine
  | act action => { m with bus := action.after m.bus }
  | access a => { m with bus := a.after m.bus }
  | takeTones => { m with bus := m.bus.takeTones.2 }
  | step => m.step.2
  | load origin bytes entry =>
    match m.load origin bytes entry with
    | .ok after => after
    | .error _ => m
  | reset entry => m.reset entry
  | setRegisters registers => { m with registers }

/-- The bytes that an operation writes, in order, each with its address. -/
def writes (m : Machine) : Operation → List (UInt16 × UInt8)
  | act action => action.write?.toList
  | access a => a.writes
  | step => m.written
  | load origin bytes _ => (Access.load origin bytes).writes
  | takeTones | reset _ | setRegisters _ => []

/-- The bytes that an operation reads, each with its address. -/
def answer (m : Machine) : Operation → List (UInt16 × UInt8)
  | act action => (action.answer? m.bus).toList
  | access a => a.answer m.bus
  | step => m.stepAnswer
  | takeTones | load .. | reset _ | setRegisters _ => []

/-- The tones that the host is given. -/
def taken (m : Machine) : Operation → List Tone
  | takeTones => m.bus.takeTones.1
  | act _ | access _ | step | load .. | reset _ | setRegisters _ => []

end Operation

def afterOperations (m : Machine) (history : List Operation) : Machine :=
  history.foldl Operation.after m

/-- All bytes that operations write, in order, each with its address. -/
def allWrites (m : Machine) : List Operation → List (UInt16 × UInt8)
  | [] => []
  | operation :: later => operation.writes m ++ (operation.after m).allWrites later

/-- All tones that the host is given. -/
def allTaken (m : Machine) : List Operation → List Tone
  | [] => []
  | operation :: later => operation.taken m ++ (operation.after m).allTaken later

section
variable {m read : Machine} {p : Prepared} {bytes : List UInt8} {sent : List Tone} {value : UInt8}

/-- An instruction that finds fault with the stack stores nothing. -/
theorem writes_of_stackFault {f : Fault} (h : m.stackFault? p = some f) (address : UInt16)
    (registers : RegisterFile) : p.instruction.mnemonic.writes address registers = [] := by
  unfold stackFault? at h
  unfold Mnemonic.writes
  cases hm : p.instruction.mnemonic with
  | store r =>
      rw [hm] at h
      cases h
  | _ => rfl

theorem plays_writeAll {b : Bus} (h : Plays bytes sent b) (writes : List (UInt16 × UInt8)) :
    Plays (bytes ++ soundBytes writes) sent (b.writeAll writes) := by
  have hall := h.actions (writes.map fun write => .write write.1 write.2)
  have hwrites : (writes.map fun write => Action.write write.1 write.2).filterMap Action.write? =
      writes := by
    rw [List.filterMap_map]
    exact List.filterMap_some
  rw [hwrites, afterActions, List.foldl_map] at hall
  exact hall

theorem plays_prepare (h : Plays bytes sent m.bus) : Plays bytes sent m.prepare.2.bus :=
  h.of_keys m.prepare_isReadFrom.2

/-- A step that faults has only read. -/
theorem written_of_step_eq_error {f : Fault} {after : Machine} (h : m.step = (.error f, after)) :
    m.written = [] ∧ m.prepare.2 = after := by
  rcases exists_of_step_eq_error h with hprepare | ⟨p, hprepare, hfault⟩
  · unfold written
    rw [hprepare]
    exact ⟨rfl, rfl⟩
  · exact ⟨by rw [written_eq hprepare, writes_of_stackFault hfault], by rw [hprepare]⟩

theorem plays_step (h : Plays bytes sent m.bus) :
    Plays (bytes ++ soundBytes m.written) sent m.step.2.bus := by
  have hread := plays_prepare h
  generalize hstep : m.step = result
  obtain ⟨outcome, after⟩ := result
  cases outcome with
  | ok s =>
      show Plays _ sent after.bus
      rw [bus_step hstep]
      exact plays_writeAll (hread.of_keys (readAll_eq_of_keys _ _)) m.written
  | error f =>
      obtain ⟨hnone, hafter⟩ := written_of_step_eq_error hstep
      rw [hafter] at hread
      rw [hnone, soundBytes_nil, List.append_nil]
      exact hread

theorem eq_of_mem_fetchBytes (h : Plays bytes sent m.bus) {n : Nat}
    (hmem : (soundBase, value) ∈ bytesFrom m.registers.pc (m.fetchBytes n).1) :
    value = if bytes.length % 2 = 1 then 1 else 0 := by
  induction n generalizing m with
  | zero => exact absurd hmem List.not_mem_nil
  | succ n ih =>
      have hbytes : bytesFrom m.registers.pc (m.fetchBytes (n + 1)).1 =
          (m.registers.pc, (m.bus.peek m.registers.pc).1) ::
            bytesFrom m.fetch.2.registers.pc (m.fetch.2.fetchBytes n).1 := bytesFrom_cons _ _ _
      rw [hbytes, List.mem_cons] at hmem
      rcases hmem with hfirst | hmem
      · exact h.eq_of_mem_answer (.peek m.registers.pc false)
          (List.mem_singleton.mpr hfirst)
      · exact ih (h.of_keys m.fetch_isReadFrom.2) hmem

theorem eq_of_mem_operandAnswer (h : Plays bytes sent m.bus)
    (hmem : (soundBase, value) ∈ m.operandAnswer p) :
    value = if bytes.length % 2 = 1 then 1 else 0 := by
  unfold operandAnswer at hmem
  split at hmem
  · next a r _ _ =>
    cases hwidth : Width.ofRegister r with
    | byte =>
        have hbyte : Width.byte.parts a (m.read .byte a).1 = (Access.peek a false).answer m.bus :=
          congrArg (fun value => [(a, value)]) (lowByte_toUInt16 _)
        rw [hwidth, hbyte] at hmem
        exact h.eq_of_mem_answer (.peek a false) hmem
    | word =>
        have hword : Width.word.parts a (m.read .word a).1 =
            (Access.peekWord a false).answer m.bus := rfl
        rw [hwidth, hword] at hmem
        exact h.eq_of_mem_answer (.peekWord a false) hmem
  · cases hmem

theorem eq_of_mem_stepAnswer (h : Plays bytes sent m.bus)
    (hmem : (soundBase, value) ∈ m.stepAnswer) :
    value = if bytes.length % 2 = 1 then 1 else 0 := by
  rcases List.mem_append.mp hmem with hmem | hmem
  · exact eq_of_mem_fetchBytes h hmem
  · split at hmem
    · next p read hprepare =>
      have hread := plays_prepare h
      rw [hprepare] at hread
      exact eq_of_mem_operandAnswer hread hmem
    · cases hmem

theorem plays_after (h : Plays bytes sent m.bus) (operation : Operation) :
    Plays (bytes ++ soundBytes (operation.writes m)) (sent ++ operation.taken m)
      (operation.after m).bus := by
  cases operation with
  | act action =>
      rw [Operation.taken, List.append_nil]
      exact h.action action
  | access a =>
      rw [Operation.taken, List.append_nil]
      exact h.access a
  | takeTones =>
      rw [Operation.writes, soundBytes_nil, List.append_nil]
      exact h.takeTones
  | step =>
      simp only [Operation.writes, Operation.taken, Operation.after, List.append_nil]
      exact plays_step h
  | load origin bytes entry =>
      have hbus : (Operation.after m (.load origin bytes entry)).bus =
          (Access.load origin bytes).after m.bus := by
        rw [Operation.after, Machine.load, Access.after]
        cases m.bus.load origin bytes <;> rfl
      rw [Operation.taken, List.append_nil, hbus]
      exact h.access (.load origin bytes)
  | reset | setRegisters =>
      rw [Operation.writes, Operation.taken, soundBytes_nil, List.append_nil, List.append_nil]
      exact h

theorem plays_afterOperations (h : Plays bytes sent m.bus) (history : List Operation) :
    Plays (bytes ++ soundBytes (m.allWrites history)) (sent ++ m.allTaken history)
      (m.afterOperations history).bus := by
  induction history generalizing m bytes sent with
  | nil =>
      rw [allWrites, allTaken, soundBytes_nil, List.append_nil, List.append_nil]
      exact h
  | cons operation later ih =>
      rw [allWrites, allTaken, soundBytes_append, ← List.append_assoc, ← List.append_assoc]
      exact ih (plays_after h operation)

theorem eq_of_mem_answer (h : Plays bytes sent m.bus) {operation : Operation}
    (hmem : (soundBase, value) ∈ operation.answer m) :
    value = if bytes.length % 2 = 1 then 1 else 0 := by
  cases operation with
  | act action =>
      cases action with
      | read address bypass => exact h.eq_of_mem_answer (.peek address bypass) hmem
      | press | typeText | clearKeys | write => cases hmem
  | access a => exact h.eq_of_mem_answer a hmem
  | step => exact eq_of_mem_stepAnswer h hmem
  | takeTones | load | reset | setRegisters => cases hmem

end

/-- The sound plays the bytes that were written to its address in pairs, whatever a host and a
program do, and shows whether one of them waits for its partner. -/
theorem sound_in_pairs (history : List Operation) :
    let m := standard.afterOperations history
    let bytes := soundBytes (standard.allWrites history)
    standard.allTaken history ++ m.bus.tones.toList = tonesOf bytes ∧
    (∀ (operation : Operation) (value : UInt8), (soundBase, value) ∈ operation.answer m →
      value = if bytes.length % 2 = 1 then 1 else 0) ∧
    ∀ operation : Operation, soundBase ∉ (operation.writes m).map Prod.fst →
      (operation.after m).bus.find? soundBase = m.bus.find? soundBase ∧
        operation.taken m ++ (operation.after m).bus.tones.toList = m.bus.tones.toList := by
  intro m bytes
  have hplays : Plays bytes (standard.allTaken history) m.bus :=
    plays_afterOperations (m := standard) plays_standard history
  refine ⟨hplays.tones, fun operation value => eq_of_mem_answer hplays, fun operation hwrites => ?_⟩
  have hnext := plays_after hplays operation
  rw [soundBytes_eq_nil hwrites, List.append_nil] at hnext
  refine ⟨hnext.pending.trans hplays.pending.symm, ?_⟩
  have htones := hnext.tones.trans hplays.tones.symm
  rw [List.append_assoc] at htones
  exact List.append_cancel_left htones

/-- The second byte of a word falls on the sound. The machine is reset, and its program reads the
sound. -/
theorem sound_waits_after_word :
    let history : List Operation :=
      [.load 0 [0x11, 0xF0, 0xEF] 0x4000, .access (.pokeWord 0xEFEF 0x3C07), .reset 0]
    let m := standard.afterOperations history
    soundBytes (standard.allWrites history) = [0x3C] ∧
      (soundBase, 1) ∈ Operation.step.answer m ∧
      (1 : UInt8) = (if (soundBytes (standard.allWrites history)).length % 2 = 1 then 1 else 0) ∧
      soundBase ∉ (Operation.step.writes m).map Prod.fst ∧
      (Operation.step.after m).bus.find? soundBase = m.bus.find? soundBase := by
  intro history m
  have hread : (soundBase, 1) ∈ Operation.step.answer m := by decide +kernel
  have hwrites : soundBase ∉ (Operation.step.writes m).map Prod.fst := by decide +kernel
  have hpairs := sound_in_pairs history
  exact ⟨by decide +kernel, hread, hpairs.2.1 .step 1 hread, hwrites, (hpairs.2.2 .step hwrites).1⟩

end B33.Machine
