import B33.Proofs.Machine.Frame
import B33.Proofs.Machine.Indexed

/-!
# Faults

An instruction that faults has been read, but not performed. So all that a fault leaves behind is
what reading does: the program counter stands behind the bytes that were read, a key may have been
taken with one of them, and a call that would overflow the stack has stepped its index register.
-/
namespace B33

/-- Where a step takes an index register. -/
def IndexStep.moved (value : UInt16) : IndexStep → UInt16
  | .none => value
  | .inc n => value + n.toUInt16
  | .dec n => value - n.toUInt16

theorem RegisterFile.set_index {index : Register} (hindex : IndexForm.isIndex index)
    (file : RegisterFile) (v : UInt16) :
    (file.set index v).a = file.a ∧ (file.set index v).b = file.b ∧
      (file.set index v).cc = file.cc := by
  cases index with
  | x | y => exact ⟨rfl, rfl, rfl⟩
  | a | b | d => cases hindex

namespace IndexForm

theorem isIndex_of_decode {byte : UInt8} {f : IndexForm} (h : decode byte = .ok f) :
    isIndex f.index = true := by
  have all : ∀ x ∈ indexBits, isIndex x.2 = true := by decide
  exact all _ (fields_of_decode h).1

/-- An index form steps its register, and changes nothing else. -/
theorem resolve_snd (f : IndexForm) (h : isIndex f.index) (file : RegisterFile) :
    (f.resolve file).2 = file.set f.index (f.step.moved (file.get f.index)) := by
  unfold resolve
  cases f.step with
  | none => exact (RegisterFile.set_get_index h file).symm
  | inc n => rfl
  | dec n => rfl

end IndexForm

namespace Machine
open Bus

/-- Why the instruction at the program counter faults, and how many bytes are read until then. -/
inductive Faults (m : Machine) : Fault → Nat → Prop
  | unknownOpcode : Instruction.decode (m.bus.inspect m.registers.pc) = none →
      Faults m (.unknownOpcode (m.bus.inspect m.registers.pc) m.registers.pc) 1
  | illegalIndex {i : Instruction} {e : IndexError} :
      Instruction.decode (m.bus.inspect m.registers.pc) = some i → i.mode = .indexed →
      IndexForm.decode (m.bus.inspect (m.registers.pc + 1)) = .error e →
      Faults m (.illegalIndex (m.bus.inspect (m.registers.pc + 1)) m.registers.pc) 2
  | stackOverflow {i : Instruction} :
      Instruction.decode (m.bus.inspect m.registers.pc) = some i →
      (i.mnemonic = .call ∨ ∃ r, i.mnemonic = .push r) → stackLimit ≤ m.stack.length →
      Faults m (.stackOverflow m.registers.pc) i.length
  | stackUnderflow {i : Instruction} :
      Instruction.decode (m.bus.inspect m.registers.pc) = some i →
      (i.mnemonic = .ret ∨ ∃ r, i.mnemonic = .pop r) → m.stack = [] →
      Faults m (.stackUnderflow m.registers.pc) i.length

/-- The index form of the call at the program counter, if the call overflows the stack. -/
def overflowingForm? (m : Machine) : Fault → Option IndexForm
  | .stackOverflow _ =>
    (Instruction.decode (m.bus.inspect m.registers.pc)).bind fun i =>
      if i.mnemonic = .call then m.form? i else none
  | _ => none

/-- What a machine is like after a fault for which `n` bytes were read. -/
structure Intact (m : Machine) (f : Fault) (n : Nat) (after : Machine) : Prop where
  address : f.address = m.registers.pc
  counter : after.registers.pc = m.registers.pc + UInt16.ofNat n
  a : after.registers.a = m.registers.a
  b : after.registers.b = m.registers.b
  codes : after.registers.cc = m.registers.cc
  index : ∀ r, IndexForm.isIndex r = true →
    (∀ form ∈ m.overflowingForm? f, form.index ≠ r) →
    after.registers.get r = m.registers.get r
  /-- A call that would overflow the stack has stepped its index register. -/
  stepped : ∀ form ∈ m.overflowingForm? f,
    after.registers.get form.index = form.step.moved (m.registers.get form.index)
  stack : after.stack = m.stack
  memory : after.bus.ram = m.bus.ram
  /-- The screens keep their bytes, and the sound waits for what it waited for. -/
  devices : after.bus.devices = m.bus.devices
  tones : after.bus.tones = m.bus.tones
  keys : (∀ k < n, m.registers.pc + UInt16.ofNat k ≠ keyAddress) → after.bus.keys = m.bus.keys

section
variable {m read after : Machine} {p : Prepared} {f : Fault} {n : Nat} {i : Instruction}

/-- The registers when a fault is found, but for the program counter. -/
theorem registers_overflowing
    (hform : ∀ form ∈ m.overflowingForm? f, IndexForm.isIndex form.index) :
    ((m.overflowingForm? f).map fun form => (form.resolve m.registers).2).getD m.registers =
      (m.overflowingForm? f).elim m.registers fun form =>
        m.registers.set form.index (form.step.moved (m.registers.get form.index)) := by
  cases hcall : m.overflowingForm? f with
  | none => rfl
  | some form => exact form.resolve_snd (hform form hcall) m.registers

/-- A machine that has read `n` bytes, and stepped no register but that of a call, is intact. -/
theorem intact_of_reading (haddress : f.address = m.registers.pc)
    (hform : ∀ form ∈ m.overflowingForm? f, IndexForm.isIndex form.index)
    (hregisters : after.registers =
      { ((m.overflowingForm? f).map fun form => (form.resolve m.registers).2).getD m.registers with
        pc := m.registers.pc + UInt16.ofNat n })
    (hstack : after.stack = m.stack)
    (hbus : after.bus = m.bus.afterReading m.registers.pc n) : m.Intact f n after := by
  rw [registers_overflowing hform] at hregisters
  have hbytes : after.registers.a = m.registers.a ∧ after.registers.b = m.registers.b ∧
      after.registers.cc = m.registers.cc := by
    rw [hregisters]
    cases hcall : m.overflowingForm? f with
    | none => exact ⟨rfl, rfl, rfl⟩
    | some form => exact RegisterFile.set_index (hform form hcall) m.registers _
  have hshared : after.bus.ram = m.bus.ram ∧ after.bus.devices = m.bus.devices ∧
      after.bus.tones = m.bus.tones := by
    rw [hbus, afterReading]
    split <;> exact ⟨rfl, rfl, rfl⟩
  constructor
  case address => exact haddress
  case counter => rw [hregisters]
  case a => exact hbytes.1
  case b => exact hbytes.2.1
  case codes => exact hbytes.2.2
  case index =>
    intro r hr hne
    rw [hregisters, RegisterFile.get_with]
    cases hcall : m.overflowingForm? f with
    | none => rfl
    | some form => exact RegisterFile.get_set_of_ne (hform form hcall) (hne form hcall).symm _ _
  case stepped =>
    intro form hcall
    rw [hregisters, RegisterFile.get_with, Option.mem_def.mp hcall]
    exact RegisterFile.get_set_index (hform form hcall) _ _
  case stack => exact hstack
  case memory => exact hshared.1
  case devices => exact hshared.2.1
  case tones => exact hshared.2.2
  case keys =>
    intro hne
    have hnot : ¬handsOutKey m.registers.pc n = true := by
      rw [handsOutKey_iff, List.mem_map]
      rintro ⟨k, hk, heq⟩
      exact hne k (List.mem_range.mp hk) heq
    rw [hbus, afterReading, if_neg hnot]

/-- A step that faults does so while it reads the instruction, or finds fault with the stack. -/
theorem exists_of_step_eq_error (h : m.step = (.error f, after)) :
    m.prepare = (.error f, after) ∨
      ∃ p, m.prepare = (.ok p, after) ∧ after.stackFault? p = some f := by
  unfold step at h
  split at h
  · next hprepare =>
    cases h
    exact .inl hprepare
  · next p read hprepare =>
    split at h
    · next hfault =>
      cases h
      exact .inr ⟨p, hprepare, hfault⟩
    · cases h

theorem address_of_prepare (h : m.prepare = (.ok p, read)) : p.address = m.registers.pc := by
  unfold prepare at h
  dsimp only at h
  split at h
  · cases h
  · split at h
    · cases h
    · cases h
      rfl

/-- Only the index byte of an operand can be illegal. -/
theorem illegal_of_resolve_eq_none {operand : UInt16} {file : RegisterFile}
    (h : resolve i operand file = none) :
    i.mode = .indexed ∧ ∃ e, IndexForm.decode (lowByte operand) = .error e := by
  unfold resolve at h
  cases hmode : i.mode with
  | indexed =>
      simp only [hmode] at h
      split at h
      · cases h
      · next e he => exact ⟨rfl, e, he⟩
  | inherent | immediate | extended | relative =>
      simp only [hmode] at h
      cases h

theorem faults_of_prepare (h : m.bus.IsStandard) (hprepare : m.prepare = (.error f, after)) :
    ∃ n, m.Faults f n ∧ m.Intact f n after := by
  rw [prepare_standard h] at hprepare
  cases hi : Instruction.decode (m.bus.inspect m.registers.pc) with
  | none =>
      rw [hi] at hprepare
      cases hprepare
      exact ⟨1, .unknownOpcode hi, intact_of_reading rfl
        (fun form hmem => (Option.not_mem_none form hmem).elim) rfl rfl rfl⟩
  | some i =>
      rw [hi] at hprepare
      dsimp only at hprepare
      cases hresolve : resolve i (m.operand i) (m.advance i.length).registers with
      | some r =>
          rw [hresolve] at hprepare
          cases hprepare
      | none =>
          rw [hresolve] at hprepare
          cases hprepare
          obtain ⟨hmode, e, he⟩ := illegal_of_resolve_eq_none hresolve
          have htable := (Instruction.decode_eq_some_iff.mp hi).1
          have hone := (Instruction.takesAddress_of_indexed htable hmode).2
          have hlength : i.length = 2 := by rw [Instruction.length, hone]
          rw [operand_byte hone, lowByte_toUInt16] at he ⊢
          rw [hlength]
          exact ⟨2, .illegalIndex hi hmode he, intact_of_reading rfl
            (fun form hmem => (Option.not_mem_none form hmem).elim) rfl rfl rfl⟩

/-- Of the instructions that work on the stack only a call has an index form. -/
theorem form?_of_not_takesAddress (hi : i ∈ Instruction.table)
    (h : i.mnemonic.takesAddress = false) : m.form? i = none := by
  refine if_neg fun hmode => ?_
  rw [(Instruction.takesAddress_of_indexed hi hmode).1] at h
  cases h

theorem faults_of_stackFault (hread : m.IsRead p after) (hp : p.address = m.registers.pc)
    (hfault : after.stackFault? p = some f) :
    ∃ n, m.Faults f n ∧ m.Intact f n after := by
  have hi := hread.decode
  have htable := (Instruction.decode_eq_some_iff.mp hi).1
  have hstack := hread.stack
  -- The form of the operand is that of the call, or there is none.
  have hintact (haddress : f.address = m.registers.pc)
      (hform : m.overflowingForm? f = m.form? p.instruction) :
      m.Intact f p.instruction.length after := by
    refine intact_of_reading haddress ?_ ?_ hstack hread.bus
    · intro form hmem
      rw [hform, form?] at hmem
      split at hmem
      · exact IndexForm.isIndex_of_decode (toOption_eq_some_iff.mp hmem)
      · cases hmem
    · rw [hform, hread.registers]
      rfl
  unfold stackFault? at hfault
  rw [hp] at hfault
  cases hm : p.instruction.mnemonic with
  | call =>
      rw [hm] at hfault
      obtain ⟨hfull, hf⟩ := Option.ite_none_right_eq_some.mp hfault
      cases hf
      rw [hstack] at hfull
      refine ⟨_, .stackOverflow hi (.inl hm) hfull, hintact rfl ?_⟩
      simp [overflowingForm?, hi, hm]
  | push r =>
      rw [hm] at hfault
      obtain ⟨hfull, hf⟩ := Option.ite_none_right_eq_some.mp hfault
      cases hf
      rw [hstack] at hfull
      refine ⟨_, .stackOverflow hi (.inr ⟨r, hm⟩) hfull, hintact rfl ?_⟩
      rw [form?_of_not_takesAddress htable (by rw [hm]; rfl)]
      simp [overflowingForm?, hi, hm]
  | ret | pop r =>
      rw [hm] at hfault
      obtain ⟨hempty, hf⟩ := Option.ite_none_right_eq_some.mp hfault
      cases hf
      rw [hstack, List.isEmpty_iff] at hempty
      refine ⟨_, .stackUnderflow hi (by simp [hm]) hempty, hintact rfl ?_⟩
      rw [form?_of_not_takesAddress htable (by rw [hm]; rfl)]
      rfl
  | _ =>
      rw [hm] at hfault
      cases hfault

/-- A fault leaves the machine as it was, but for what reading the instruction did to it. -/
theorem step_fault (h : m.bus.IsStandard) (hs : m.step = (.error f, after)) :
    ∃ n, m.Faults f n ∧ m.Intact f n after := by
  rcases exists_of_step_eq_error hs with hprepare | ⟨p, hprepare, hfault⟩
  · exact faults_of_prepare h hprepare
  · exact faults_of_stackFault (isRead_of_prepare h hprepare) (address_of_prepare hprepare) hfault

/-- A call whose opcode is read from the keyboard, with a full stack: the key is gone, the index
register is stepped, and nothing else has changed. -/
theorem fault_of_call_from_keys :
    let m : Machine :=
      { registers := { x := 0x2000, pc := 0xFFFF }
        stack := List.replicate stackLimit 7
        bus := { Bus.standard with keys := [0x82] }.poke 0 0x28 }
    m.bus.IsStandard ∧ ∃ f after n, m.step = (.error f, after) ∧ f = .stackOverflow 0xFFFF ∧
      m.Faults f n ∧ m.Intact f n after ∧ after.registers.pc = 1 ∧ after.registers.x = 0x2001 := by
  intro m
  have hkeys : ({ Bus.standard with keys := [0x82] } : Bus).IsStandard :=
    isStandard_standard.of_devices rfl
  have h : m.bus.IsStandard := hkeys.poke 0 0x28
  have hrun : m.step.1 = .error (.stackOverflow 0xFFFF) ∧ m.step.2.registers.pc = 1 ∧
      m.step.2.registers.x = 0x2001 := by decide +kernel
  have hstep : m.step = (.error (.stackOverflow 0xFFFF), m.step.2) := by rw [← hrun.1]
  obtain ⟨n, hfaults, hintact⟩ := step_fault h hstep
  exact ⟨h, _, _, n, hstep, rfl, hfaults, hintact, hrun.2⟩

end

end Machine

end B33
