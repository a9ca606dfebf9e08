import B33.Executable
import B33.Machine.Step
import B33.Proofs.Bus
import B33.Proofs.Instruction

/-!
# Reading an instruction

A machine without devices reads the bytes that lie at its program counter, and reading changes
nothing but the program counter. What it takes them for depends on those bytes alone.
-/
namespace B33.Machine

variable {m : Machine}

/-- The next bytes at the program counter. -/
def fetchBytes (m : Machine) : Nat → List UInt8 × Machine
  | 0 => ([], m)
  | n + 1 =>
    let (value, m) := m.fetch
    let (values, m) := m.fetchBytes n
    (value :: values, m)

/-- The word that operand bytes stand for. -/
def operandWord : List UInt8 → UInt16
  | [] => 0
  | [value] => value.toUInt16
  | low :: high :: _ => wordOf high low

@[simp] theorem operandWord_wordBytes (w : UInt16) :
    operandWord (Executable.wordBytes w) = w := wordOf_highByte_lowByte w

@[simp] theorem jump_jump (m : Machine) (a b : UInt16) : (m.jump a).jump b = m.jump b := rfl

@[simp] theorem pc_jump (m : Machine) (a : UInt16) : (m.jump a).registers.pc = a := rfl

theorem fetch_eq (h : m.bus.devices = []) :
    m.fetch = (m.bus.ramAt m.registers.pc, m.jump (m.registers.pc + 1)) := by
  simp only [fetch, Bus.peek_of_no_devices h, jump]

/-- Reading as many bytes as were put there gives those bytes. -/
theorem fetchBytes_eq (h : m.bus.devices = []) {values : List UInt8}
    (hv : m.bus.Holds m.registers.pc values) :
    m.fetchBytes values.length =
      (values, m.jump (m.registers.pc + UInt16.ofNat values.length)) := by
  induction values generalizing m with
  | nil => simp [fetchBytes, jump]
  | cons value values ih =>
      obtain ⟨hvalue, hrest⟩ := hv
      have hih := @ih (m.jump (m.registers.pc + 1)) h hrest
      rw [pc_jump, jump_jump, add_ofNat_succ] at hih
      simp only [List.length_cons, fetchBytes, fetch_eq h, hvalue, hih]

theorem fetchOperand_eq (m : Machine) {n : Nat} (h : n ≤ 2) :
    m.fetchOperand n = (operandWord (m.fetchBytes n).1, (m.fetchBytes n).2) := by
  match n, h with
  | 0, _ => rfl
  | 1, _ => rfl
  | 2, _ => rfl

theorem registers_fetchOperand (m : Machine) {n : Nat} (h : n ≤ 2) :
    (m.fetchOperand n).2.registers =
      { m.registers with pc := m.registers.pc + UInt16.ofNat n } := by
  match n, h with
  | 0, _ => simp [fetchOperand]
  | 1, _ => rfl
  | 2, _ =>
      show { m.registers with pc := m.registers.pc + 1 + 1 } = _
      rw [UInt16.add_assoc]
      rfl

/-- The operand of an instruction at the program counter, and the machine that has read it. -/
def takeOperand (m : Machine) (i : Instruction) : UInt16 × Machine :=
  m.fetch.2.fetchOperand i.operandLength

/-- Reading an instruction moves the program counter behind it and no other register. -/
theorem registers_takeOperand (m : Machine) {i : Instruction} (hi : i ∈ Instruction.table) :
    (m.takeOperand i).2.registers =
      { m.registers with pc := m.registers.pc + UInt16.ofNat i.length } := by
  rw [takeOperand, registers_fetchOperand _ (Instruction.operandLength_le_two hi)]
  show { m.registers with pc := m.registers.pc + 1 + UInt16.ofNat i.operandLength } = _
  rw [add_ofNat_succ, Instruction.length, Nat.add_comm]

/-- What is read at the program counter follows from the opcode and the operand behind it. -/
theorem prepare_of_decode {i : Instruction} (hi : Instruction.decode m.fetch.1 = some i) :
    m.prepare =
      match resolve i (m.takeOperand i).1 (m.takeOperand i).2.registers with
      | none =>
        (.error (.illegalIndex (lowByte (m.takeOperand i).1) m.registers.pc), (m.takeOperand i).2)
      | some (argument, registers) =>
        (.ok { address := m.registers.pc, instruction := i, argument },
          { (m.takeOperand i).2 with registers }) := by
  unfold prepare
  dsimp only
  rw [hi]
  rfl

/-- An instruction whose bytes lie at the program counter is read with them. -/
theorem prepare_eq (h : m.bus.devices = []) {i : Instruction} {values : List UInt8}
    {argument : Argument} {registers : RegisterFile} (hi : Instruction.decode i.opcode = some i)
    (hl : i.operandLength = values.length) (h₂ : values.length ≤ 2)
    (hv : m.bus.Holds m.registers.pc (i.opcode :: values))
    (hr : resolve i (operandWord values)
      (m.jump (m.registers.pc + UInt16.ofNat (i.opcode :: values).length)).registers =
        some (argument, registers)) :
    m.prepare = (.ok { address := m.registers.pc, instruction := i, argument },
      { m with registers }) := by
  obtain ⟨hopcode, hrest⟩ := hv
  have hfetch := @fetchBytes_eq (m.jump (m.registers.pc + 1)) h values hrest
  rw [pc_jump, jump_jump, add_ofNat_succ] at hfetch
  unfold prepare
  rw [fetch_eq h, hopcode]
  dsimp only
  rw [hi]
  dsimp only
  rw [hl, fetchOperand_eq _ h₂, hfetch]
  dsimp only
  rw [← List.length_cons, hr]
  rfl

/-- An instruction that was read is performed unless the stack forbids it. -/
theorem step_of_prepare {p : Prepared} {after : Machine} (h : m.prepare = (.ok p, after)) :
    m.step = match after.stackFault? p with
      | some fault => (.error fault, after)
      | none => (.ok p.outcome, after.perform p) := by
  unfold step
  cases hfault : after.stackFault? p with
  | none => simp only [h, hfault]
  | some fault => simp only [h, hfault]

end B33.Machine
