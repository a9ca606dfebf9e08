import B33.Proofs.Except
import B33.Proofs.Machine.Perform
import B33.Proofs.Machine.Standard
import B33.Proofs.Machine.Still

/-!
# What a step leaves alone

A step that executes an instruction changes what the instruction is for and nothing else. The
registers, the condition codes, the stack, memory and each of the standard devices are left as they
were, except for what is named here.
-/
namespace B33

namespace Bus

variable {b : Bus} {addresses : List UInt16} {writes : List (UInt16 × UInt8)}

/-- Reads change nothing but the keys. -/
theorem readAll_eq_of_keys (b : Bus) (addresses : List UInt16) :
    b.readAll addresses = { b with keys := (b.readAll addresses).keys } := by
  refine List.foldlRecOn (motive := fun b' : Bus => b' = { b with keys := b'.keys }) addresses _
    rfl fun b' hb' address _ => ?_
  rw [b'.peek_snd_eq address, hb']

/-- Reads outside the address that hands out keys change nothing. -/
theorem IsStandard.readAll_eq (h : b.IsStandard) (ha : keyAddress ∉ addresses) :
    b.readAll addresses = b := by
  refine List.foldlRecOn (motive := fun b' => b' = b) addresses _ rfl fun b' hb' address hmem => ?_
  have hne : address ≠ keyAddress := fun heq => ha (heq ▸ hmem)
  rw [hb', h.peek_eq, if_neg hne]

/-- What holds of a bus, and is preserved by each of some writes while the standard devices are
there, holds after all of them. -/
theorem IsStandard.writeAll_induction {P : Bus → Prop} (h : b.IsStandard) (hb : P b)
    (hpoke : ∀ b', IsStandard b' → P b' → ∀ write ∈ writes, P (b'.poke write.1 write.2)) :
    (b.writeAll writes).IsStandard ∧ P (b.writeAll writes) :=
  List.foldlRecOn (motive := fun b' : Bus => b'.IsStandard ∧ P b') writes _ ⟨h, hb⟩
    fun b' hb' write hmem => ⟨hb'.1.poke _ _, hpoke b' hb'.1 hb'.2 write hmem⟩

theorem IsStandard.writeAll (h : b.IsStandard) (writes : List (UInt16 × UInt8)) :
    (b.writeAll writes).IsStandard :=
  (h.writeAll_induction (P := fun _ => True) trivial fun _ _ _ _ _ => trivial).1

theorem ne_of_not_written {address : UInt16} (ha : address ∉ writes.map Prod.fst)
    {write : UInt16 × UInt8} (hmem : write ∈ writes) : write.1 ≠ address :=
  fun heq => ha (heq ▸ List.mem_map_of_mem hmem)

theorem ramAt_writeAll {address : UInt16} (ha : address ∉ writes.map Prod.fst) :
    (b.writeAll writes).ramAt address = b.ramAt address := by
  refine List.foldlRecOn (motive := fun b' : Bus => b'.ramAt address = b.ramAt address) writes _ rfl
    fun b' hb' write hmem => ?_
  rw [b'.ramAt_poke_of_ne (ne_of_not_written ha hmem), hb']

theorem IsStandard.inspect_writeAll (h : b.IsStandard) {address : UInt16} (hp : IsPlain address)
    (ha : address ∉ writes.map Prod.fst) :
    (b.writeAll writes).inspect address = b.inspect address := by
  refine (h.writeAll_induction (P := fun b' => b'.inspect address = b.inspect address) rfl ?_).2
  intro b' hb' hsame write hmem
  rw [inspect_poke (hb'.keeps hp), if_neg (ne_of_not_written ha hmem), hsame]

/-- Writes leave the keys alone unless they drop them. -/
theorem IsStandard.keys_writeAll (h : b.IsStandard) (hw : (keyboardBase, 0) ∉ writes) :
    (b.writeAll writes).keys = b.keys := by
  refine (h.writeAll_induction (P := fun b' => b'.keys = b.keys) rfl ?_).2
  intro b' hb' hsame write hmem
  have hne : ¬(write.1 = keyboardBase ∧ write.2 = 0) := by
    rintro ⟨h₁, h₂⟩
    exact hw (h₁ ▸ h₂ ▸ hmem)
  rw [hb'.keys_poke, if_neg hne, hsame]

/-- Writes to other addresses do not reach the sound. -/
theorem IsStandard.sound_writeAll (h : b.IsStandard) (hw : soundBase ∉ writes.map Prod.fst) :
    (b.writeAll writes).find? soundBase = b.find? soundBase ∧
      (b.writeAll writes).tones = b.tones := by
  refine (h.writeAll_induction
    (P := fun b' => b'.find? soundBase = b.find? soundBase ∧ b'.tones = b.tones) ⟨rfl, rfl⟩ ?_).2
  intro b' hb' hsame write hmem
  obtain ⟨hfind, htones⟩ := hb'.sound_poke (ne_of_not_written hw hmem) write.2
  exact ⟨hfind.trans hsame.1, htones.trans hsame.2⟩

theorem handsOutKey_iff (address : UInt16) (n : Nat) :
    handsOutKey address n = true ↔
      keyAddress ∈ (List.range n).map fun i => address + UInt16.ofNat i := by
  simp [handsOutKey]

end Bus

namespace RegisterFile

@[simp] theorem get_with (file : RegisterFile) (pc : UInt16) (cc : UInt8) (r : Register) :
    ({ file with pc, cc } : RegisterFile).get r = file.get r := by
  cases r <;> rfl

@[simp] theorem set_with_pc (file : RegisterFile) (pc : UInt16) (r : Register) (value : UInt16) :
    ({ file with pc } : RegisterFile).set r value = { file.set r value with pc } := by
  cases r <;> rfl

theorem get_changed_of_apart {file : RegisterFile} {destination : Option Register} {r : Register}
    (h : ∀ reg ∈ destination, reg.overlaps r = false) (value : UInt16) (codes : FlagChange)
    (pc : UInt16) : (file.changed destination value codes pc).get r = file.get r := by
  rw [changed, get_with]
  cases destination with
  | none => rfl
  | some reg => exact get_set_of_apart (h reg rfl) file value

end RegisterFile

theorem Condition.holds_congr {r s : RegisterFile} (h : r.cc = s.cc) (c : Condition) :
    c.holds r = c.holds s := by
  cases c <;> simp only [holds, RegisterFile.flag, h]

namespace IndexForm

/-- An index form means the same address wherever the instruction stands. -/
theorem resolve_with_pc (f : IndexForm) (file : RegisterFile) (pc : UInt16) :
    f.resolve { file with pc } = ((f.resolve file).1, { (f.resolve file).2 with pc }) := by
  have hget (file : RegisterFile) (cc : UInt8) :
      f.offset.map ({ file with pc, cc } : RegisterFile).get = f.offset.map file.get := by
    cases f.offset <;> simp
  unfold resolve
  cases f.step <;> simp [hget]

theorem get_resolve_of_apart {f : IndexForm} {r : Register}
    (h : f.step ≠ .none → f.index.overlaps r = false) (file : RegisterFile) :
    (f.resolve file).2.get r = file.get r := by
  unfold resolve
  cases hstep : f.step with
  | none => rfl
  | inc n | dec n => exact RegisterFile.get_set_of_apart (h (by simp [hstep])) _ _

theorem cc_resolve (f : IndexForm) (file : RegisterFile) : (f.resolve file).2.cc = file.cc := by
  unfold resolve
  cases f.step <;> simp

end IndexForm

namespace Machine
open Bus

/-- The index form of an instruction at the program counter, if its operand is an index byte. -/
def form? (m : Machine) (i : Instruction) : Option IndexForm :=
  if i.mode = .indexed then (IndexForm.decode (m.bus.inspect (m.registers.pc + 1))).toOption
  else none

/-- The address that the operand of an instruction at the program counter means, or zero. -/
def effectiveAddress (m : Machine) (i : Instruction) : UInt16 :=
  match i.mode with
  | .extended => m.bus.inspectWord (m.registers.pc + 1)
  | .relative =>
    Instruction.branchTarget (m.registers.pc + 2) (m.bus.inspect (m.registers.pc + 1))
  | .indexed => ((m.form? i).map fun form => (form.resolve m.registers).1).getD 0
  | .inherent | .immediate => 0

/-- The registers once an index register is stepped. -/
def steppedRegisters (m : Machine) (i : Instruction) : RegisterFile :=
  ((m.form? i).map fun form => (form.resolve m.registers).2).getD m.registers

/-- The registers that an instruction at the program counter changes: its own, and an index register
that its operand steps. -/
def destinations (m : Machine) (i : Instruction) : List Register :=
  i.mnemonic.destination?.toList ++
    ((m.form? i).filter (·.step ≠ .none)).toList.map (·.index)

/-- The addresses where an instruction at the program counter lies. -/
def fetched (m : Machine) (i : Instruction) : List UInt16 :=
  (List.range i.length).map fun k => m.registers.pc + UInt16.ofNat k

/-- The addresses that an instruction at the program counter reads through its operand. -/
def reads (m : Machine) (i : Instruction) : List UInt16 :=
  match i.mode with
  | .extended | .indexed => i.mnemonic.reads (m.effectiveAddress i)
  | _ => []

/-- What an instruction at the program counter writes, and where. -/
def writes (m : Machine) (i : Instruction) : List (UInt16 × UInt8) :=
  i.mnemonic.writes (m.effectiveAddress i) (m.steppedRegisters i)

section
variable {m : Machine} {i : Instruction} {argument : Argument} {registers : RegisterFile}

theorem resolve_eq (hi : i ∈ Instruction.table)
    (h : resolve i (m.operand i) (m.advance i.length).registers = some (argument, registers)) :
    argument.effectiveAddress = m.effectiveAddress i ∧
      registers = { m.steppedRegisters i with pc := m.registers.pc + UInt16.ofNat i.length } ∧
      ∀ address, ({ address, instruction := i, argument } : Prepared).reads = m.reads i := by
  have hlength := Instruction.operandLength_eq hi
  unfold resolve at h
  unfold effectiveAddress steppedRegisters reads form?
  cases hmode : i.mode with
  | inherent =>
      simp only [hmode, Option.some.injEq, Prod.mk.injEq] at h
      obtain ⟨rfl, rfl⟩ := h
      exact ⟨rfl, rfl, fun _ => rfl⟩
  | immediate =>
      simp only [hmode, Option.some.injEq, Prod.mk.injEq] at h
      obtain ⟨rfl, rfl⟩ := h
      exact ⟨rfl, rfl, fun _ => rfl⟩
  | extended =>
      rw [hmode, Instruction.operandLengthOf] at hlength
      simp only [hmode, Option.some.injEq, Prod.mk.injEq, operand_word hlength] at h
      obtain ⟨rfl, rfl⟩ := h
      exact ⟨rfl, rfl, fun _ => by rw [effectiveAddress, hmode]; rfl⟩
  | relative =>
      rw [hmode, Instruction.operandLengthOf] at hlength
      simp only [hmode, Option.some.injEq, Prod.mk.injEq, operand_byte hlength, lowByte_toUInt16]
        at h
      obtain ⟨rfl, rfl⟩ := h
      have hreader : i.mnemonic.reader? = none := by
        have hbranch := (Instruction.isBranch_iff hi).mpr hmode
        cases hm : i.mnemonic <;> simp [hm, Mnemonic.isBranch, Mnemonic.reader?] at hbranch ⊢
      refine ⟨?_, rfl, fun address => reads_of_not_reader (p := ⟨address, i, _⟩) hreader⟩
      rw [Instruction.length, hlength]
      rfl
  | indexed =>
      rw [hmode, Instruction.operandLengthOf] at hlength
      simp only [hmode, operand_byte hlength, lowByte_toUInt16] at h
      rw [effectiveAddress, form?, hmode]
      split at h
      · next form hform =>
        have hresolve := form.resolve_with_pc m.registers (m.registers.pc + UInt16.ofNat i.length)
        cases h
        simp only [advance, hform, hresolve]
        exact ⟨rfl, rfl, fun _ => rfl⟩
      · cases h

end

/-- What an instruction at the program counter leaves as it was when it is executed. -/
structure Frame (m : Machine) (i : Instruction) (after : Machine) : Prop where
  counter : m.redirects i.mnemonic = false →
    after.registers.pc = m.registers.pc + UInt16.ofNat i.length
  register : ∀ r, (∀ changed ∈ m.destinations i, changed.overlaps r = false) →
    after.registers.get r = m.registers.get r
  flag : ∀ f ∉ i.mnemonic.settled, after.registers.flag f = m.registers.flag f
  codes : i.mnemonic.settled = [] → after.registers.cc = m.registers.cc
  upper : after.registers.cc &&& 0xF0 = m.registers.cc &&& 0xF0
  stack : i.mnemonic.Moves m.stack after.stack
  memory : ∀ address ∉ (m.writes i).map Prod.fst,
    after.bus.ramAt address = m.bus.ramAt address
  screens : ∀ address ∉ (m.writes i).map Prod.fst, IsPlain address →
    after.bus.inspect address = m.bus.inspect address
  devices : after.bus.IsStandard
  keys : keyAddress ∉ m.fetched i → keyAddress ∉ m.reads i →
    (keyboardBase, 0) ∉ m.writes i → after.bus.keys = m.bus.keys
  sound : soundBase ∉ (m.writes i).map Prod.fst →
    after.bus.find? soundBase = m.bus.find? soundBase ∧ after.bus.tones = m.bus.tones

section
variable {m read after : Machine} {p : Prepared} {i : Instruction} {s : Step}

theorem get_steppedRegisters {r : Register}
    (h : ∀ changed ∈ m.destinations i, changed.overlaps r = false) :
    (m.steppedRegisters i).get r = m.registers.get r := by
  unfold steppedRegisters
  cases hform : m.form? i with
  | none => rfl
  | some form =>
      refine IndexForm.get_resolve_of_apart (fun hstep => h _ ?_) m.registers
      simp [destinations, hform, hstep]

theorem cc_steppedRegisters (m : Machine) (i : Instruction) :
    (m.steppedRegisters i).cc = m.registers.cc := by
  unfold steppedRegisters
  cases m.form? i with
  | none => rfl
  | some form => exact form.cc_resolve m.registers

/-- A step that executes an instruction reads it, finds no fault and performs it. -/
theorem exists_of_step_eq_ok (h : m.step = (.ok s, after)) :
    ∃ p read, m.prepare = (.ok p, read) ∧ read.stackFault? p = none ∧ s = p.outcome ∧
      after = read.perform p := by
  unfold step at h
  split at h
  · cases h
  · next p read hprepare =>
    split at h
    · cases h
    · next hfault =>
      cases h
      exact ⟨p, read, hprepare, hfault, rfl, rfl⟩

/-- What was read of an instruction, and what became of the machine on the way. -/
structure IsRead (m : Machine) (p : Prepared) (read : Machine) : Prop where
  decode : Instruction.decode (m.bus.inspect m.registers.pc) = some p.instruction
  address : p.argument.effectiveAddress = m.effectiveAddress p.instruction
  reads : p.reads = m.reads p.instruction
  registers : read.registers = { m.steppedRegisters p.instruction with
    pc := m.registers.pc + UInt16.ofNat p.instruction.length }
  stack : read.stack = m.stack
  bus : read.bus = m.bus.afterReading m.registers.pc p.instruction.length

theorem isRead_of_prepare (h : m.bus.IsStandard) (hprepare : m.prepare = (.ok p, read)) :
    m.IsRead p read := by
  rw [prepare_standard h] at hprepare
  cases hi : Instruction.decode (m.bus.inspect m.registers.pc) with
  | none =>
      rw [hi] at hprepare
      cases hprepare
  | some i =>
      rw [hi] at hprepare
      dsimp only at hprepare
      split at hprepare
      · cases hprepare
      · next argument registers hresolve =>
        cases hprepare
        obtain ⟨htable, -⟩ := Instruction.decode_eq_some_iff.mp hi
        obtain ⟨haddress, hregisters, hreads⟩ := resolve_eq htable hresolve
        exact ⟨hi, haddress, hreads _, hregisters, rfl, rfl⟩

namespace IsRead

theorem cc_eq (h : m.IsRead p read) : read.registers.cc = m.registers.cc := by
  rw [h.registers]
  exact m.cc_steppedRegisters p.instruction

theorem redirects_eq (h : m.IsRead p read) (mnemonic : Mnemonic) :
    read.redirects mnemonic = m.redirects mnemonic := by
  unfold redirects
  split <;> first | rfl | exact Condition.holds_congr h.cc_eq _

/-- What is written once the operand is read is what could be told before. -/
theorem writes_eq (h : m.IsRead p read) :
    p.instruction.mnemonic.writes p.argument.effectiveAddress read.registers =
      m.writes p.instruction := by
  rw [h.address, h.registers]
  unfold writes Mnemonic.writes
  simp

/-- The writes come last, and all that happens to the bus before them is that keys are taken. -/
theorem bus_perform_eq (h : m.IsRead p read) :
    (read.perform p).bus =
      (read.bus.readAll (m.reads p.instruction)).writeAll (m.writes p.instruction) := by
  rw [bus_perform, h.reads, h.writes_eq]

/-- Until the instruction writes, only keys are taken, and those only by reads. -/
theorem readAll_eq (h : m.IsRead p read) (hstandard : m.bus.IsStandard) :
    ∃ keys, read.bus.readAll (m.reads p.instruction) = { m.bus with keys } ∧
      (keyAddress ∉ m.fetched p.instruction → keyAddress ∉ m.reads p.instruction →
        keys = m.bus.keys) := by
  refine ⟨(read.bus.readAll (m.reads p.instruction)).keys, (readAll_eq_of_keys _ _).trans ?_,
    fun hfetched hreads => ?_⟩
  · rw [h.bus, afterReading]
    split <;> rfl
  · have hnot : handsOutKey m.registers.pc p.instruction.length = false := by
      rwa [← Bool.not_eq_true, handsOutKey_iff]
    have hbus : read.bus = m.bus := by rw [h.bus, afterReading, hnot]; rfl
    rw [hbus, hstandard.readAll_eq hreads]

/-- Under a mask that leaves out what the instruction settles, no condition code changes. -/
theorem cc_and_eq (h : m.IsRead p read) (hfault : read.stackFault? p = none) {mask : UInt8}
    (hmask : ∀ f ∈ p.instruction.mnemonic.settled, f.mask &&& mask = 0) :
    (read.perform p).registers.cc &&& mask = m.registers.cc &&& mask := by
  obtain ⟨value, codes, pc, hregisters, hsettled, -⟩ := registers_perform hfault
  rw [hregisters, ← h.cc_eq]
  exact FlagChange.apply_and (hsettled ▸ hmask) _

theorem frame (h : m.IsRead p read) (hstandard : m.bus.IsStandard)
    (hfault : read.stackFault? p = none) : m.Frame p.instruction (read.perform p) := by
  obtain ⟨value, codes, pc, hregisters, -, hpc⟩ := registers_perform hfault
  obtain ⟨keys, hread, hkeys⟩ := h.readAll_eq hstandard
  have hbus := h.bus_perform_eq
  rw [hread] at hbus
  have hbefore : ({ m.bus with keys } : Bus).IsStandard := hstandard.of_devices rfl
  refine ⟨fun hm => ?_, fun r hr => ?_, fun f hf => ?_, fun hnone => ?_, ?_, ?_,
    fun address ha => ?_, fun address ha hp => ?_, ?_, fun hfetch hr hw => ?_, fun hw => ?_⟩
  · rw [hregisters]
    refine (hpc ((h.redirects_eq _).trans hm)).trans ?_
    rw [h.registers]
  · have hown : ∀ reg ∈ p.instruction.mnemonic.destination?, reg.overlaps r = false :=
      fun reg hreg => hr reg (List.mem_append_left _ (Option.mem_toList.mpr hreg))
    rw [hregisters, RegisterFile.get_changed_of_apart hown, h.registers, RegisterFile.get_with,
      get_steppedRegisters hr]
  · unfold RegisterFile.flag
    rw [h.cc_and_eq hfault fun g hg => ?_]
    have hne : g ≠ f := fun heq => hf (heq ▸ hg)
    cases f <;> cases g <;> first | rfl | exact absurd rfl hne
  · have hall : (read.perform p).registers.cc &&& 0xFF = m.registers.cc &&& 0xFF :=
      h.cc_and_eq hfault (by simp [hnone])
    have hff (cc : UInt8) : cc &&& 0xFF = cc := UInt8.and_neg_one
    rwa [hff, hff] at hall
  · exact h.cc_and_eq hfault fun f _ => by cases f <;> rfl
  · rw [← h.stack]
    exact stack_perform hfault
  · rw [hbus, ramAt_writeAll ha]
    rfl
  · rw [hbus, hbefore.inspect_writeAll hp ha, inspect_of_keys (hstandard.keeps hp)]
  · rw [hbus]
    exact hbefore.writeAll _
  · rw [hbus, hbefore.keys_writeAll hw]
    exact hkeys hfetch hr
  · rw [hbus]
    exact hbefore.sound_writeAll hw

end IsRead

/-- A step that executes an instruction changes what the instruction is for and nothing else. -/
theorem step_frame (h : m.bus.IsStandard) (hs : m.step = (.ok s, after)) :
    Instruction.decode (m.bus.inspect m.registers.pc) = some s.instruction ∧
      (s.store = s.instruction.mnemonic.stored?.map fun _ => m.effectiveAddress s.instruction) ∧
      m.Frame s.instruction after := by
  obtain ⟨p, read, hprepare, hfault, rfl, rfl⟩ := exists_of_step_eq_ok hs
  have hread := isRead_of_prepare h hprepare
  refine ⟨hread.decode, ?_, hread.frame h hfault⟩
  have hstore : p.outcome.store =
      p.instruction.mnemonic.stored?.map fun _ => p.argument.effectiveAddress := by
    unfold Prepared.outcome Mnemonic.stored?
    cases p.instruction.mnemonic <;> rfl
  rw [hstore, hread.address]
  rfl

/-- Storing `A` with an opcode that is read from the keyboard, to the address that memory begins
with. -/
theorem frame_of_store_from_keys :
    let m : Machine := { registers := { a := 7, pc := 0xFFFF }
                         bus := { Bus.standard with keys := [0x25] } }
    m.bus.IsStandard ∧ ∃ s after, m.step = (.ok s, after) ∧ s.store = some 0 ∧
      m.Frame s.instruction after := by
  intro m
  have h : m.bus.IsStandard := isStandard_standard.of_devices rfl
  have hrun : m.step.1.toOption.map (·.store) = some (some 0) := by decide +kernel
  obtain ⟨s, hs, hstore⟩ := Option.map_eq_some_iff.mp hrun
  generalize hstep : m.step = result at hs
  obtain ⟨outcome, after⟩ := result
  cases toOption_eq_some_iff.mp hs
  exact ⟨h, s, after, rfl, hstore, (step_frame h hstep).2.2⟩

end

end Machine

end B33
