import B33.Proofs.Assembly.Listing
import B33.Proofs.Machine.Fetch

/-!
# Assembled instructions

What the assembler writes for an instruction is what the machine reads as that instruction. Once a
program is loaded, the bytes of each line lie at the address of the line, and from there the machine
reads the mnemonic, the addressing mode and the operand that the line has.
-/
namespace B33
open Assembly Source

/-- What the machine has to take an operand for, and the registers after that. The bytes are those
of the whole instruction. -/
def Source.Operand.Means (env : Environment) (i : Instruction) (bytes : List UInt8)
    (before : RegisterFile) (argument : Argument) (after : RegisterFile) : Operand → Prop
  | .inherent => argument = .none ∧ after = before
  | .immediate e => ∃ v value, e.value env = .ok v ∧ argument = .value value ∧
      (value.toNat : Int) = v % i.width.modulus ∧ after = before
  | .address e => ∃ v target, e.value env = .ok v ∧ argument = .address target ∧
      (target.toNat : Int) = (if i.mode = .relative then v % 0x10000 else v) ∧ after = before
  | .indexed form => ∃ byte, bytes = [i.opcode, byte] ∧ IndexForm.decode byte = .ok form ∧
      argument = .address (form.resolve before).1 ∧ after = (form.resolve before).2

namespace Machine

section Operands
variable {env : Environment} {i : Instruction} {m : Mnemonic} {operand : Operand} {next : Nat}
  {values : List UInt8} {registers : RegisterFile}

/-- The machine takes the bytes of an operand for the operand. -/
theorem resolve_of_encodes (hi : i ∈ Instruction.table) (hm : i.mode = operand.mode m)
    (hlegal : ∀ form, operand = .indexed form → form.Legal)
    (hpc : registers.pc = UInt16.ofNat next) (h : EncodesOperand env next i operand values) :
    ∃ argument after, resolve i (operandWord values) registers = some (argument, after) ∧
      operand.Means env i (i.opcode :: values) registers argument after := by
  unfold resolve
  cases h with
  | inherent =>
      rw [show i.mode = .inherent from hm]
      exact ⟨.none, registers, rfl, rfl, rfl⟩
  | @byte e v hl hv h₁ h₂ =>
      have hmode : i.mode = .immediate := hm
      have hwidth : i.width = .byte := (Instruction.operandLength_eq_one_iff hi hmode).mp hl
      rw [hmode]
      exact ⟨_, registers, rfl, v, _, hv, rfl, by rw [hwidth]; exact toNat_toUInt16_ofInt v, rfl⟩
  | @word e v hl hv h₁ h₂ =>
      have hmode : i.mode = .immediate := hm
      have hwidth : i.width = .word := by
        cases hw : i.width with
        | byte => exact (hl ((Instruction.operandLength_eq_one_iff hi hmode).mpr hw)).elim
        | word => rfl
      rw [hmode]
      refine ⟨_, registers, rfl, v, _, hv, rfl, ?_, rfl⟩
      rw [operandWord_wordBytes, hwidth]
      exact toNat_ofInt v
  | @relative e v hmode hv h₁ h₂ =>
      rw [hmode]
      refine ⟨_, registers, rfl, v, _, hv, rfl, ?_, rfl⟩
      have hback : (next : Int) + (v - next) = v := by omega
      rw [if_pos hmode, operandWord, lowByte_toUInt16, hpc, Instruction.branchTarget_ofInt h₁ h₂,
        hback]
      exact toNat_ofInt v
  | @absolute e v hmode hv h₁ h₂ =>
      have hextended : i.mode = .extended := by
        rw [Operand.mode] at hm
        split_ifs at hm
        · exact (hmode hm).elim
        · exact hm
      rw [hextended]
      refine ⟨_, registers, rfl, v, _, hv, rfl, ?_, rfl⟩
      rw [if_neg hmode, operandWord_wordBytes, toNat_ofInt]
      omega
  | indexed form =>
      have hdecode := IndexForm.decode_encode_of_legal (hlegal form rfl)
      rw [show i.mode = .indexed from hm]
      simp only [operandWord, lowByte_toUInt16, hdecode]
      exact ⟨_, _, rfl, form.encode, rfl, hdecode, rfl, rfl⟩

end Operands

theorem load_eq_ok {m : Machine} (h : m.bus.devices = []) {origin entry : UInt16}
    {values : List UInt8} (hend : origin.toNat + values.length ≤ 0x10000) :
    ∃ loaded, m.load origin values entry = .ok loaded ∧ loaded.bus.devices = [] ∧
      loaded.bus.Holds origin values := by
  refine ⟨({ m with bus := m.bus.pokeAll origin values }).reset entry, ?_, ?_, ?_⟩
  · rw [load, Bus.load, if_neg (by omega)]
  · exact Bus.devices_pokeAll h origin values
  · exact Bus.holds_pokeAll h hend

end Machine

/-- A memory that has a program has the bytes of each line at the address of the line. -/
theorem Assembled.Consistent.holds {origin : UInt16} {source : String} {a : Assembled}
    {env : Environment} (h : a.Consistent origin source env) {b : Bus}
    (hb : b.Holds origin a.program.bytes) {l : ListingLine} (hl : l ∈ a.listing) :
    b.Holds l.address l.bytes := by
  obtain ⟨k, hk, rfl⟩ := List.getElem_of_mem hl
  have hsplit : a.program.bytes = (a.listing.take k).flatMap (·.bytes) ++
      (a.listing[k].bytes ++ (a.listing.drop (k + 1)).flatMap (·.bytes)) := by
    rw [h.bytes_eq, ← List.flatMap_cons, ← List.drop_eq_getElem_cons hk, ← List.flatMap_append,
      List.take_append_drop]
  rw [hsplit, Bus.holds_append, Bus.holds_append] at hb
  rw [h.address_eq k hk, UInt16.ofNat_add, UInt16.ofNat_toNat]
  exact hb.2.1

/-- What the machine makes of the bytes of a line: it reads exactly those, takes them for the
instruction `p`, and then performs that unless the stack forbids it. -/
structure Machine.Executes (m : Machine) (env : Environment) (l : ListingLine) (mnemonic : Mnemonic)
    (operand : Operand) (p : Prepared) (after : Machine) : Prop where
  fetchBytes_eq : m.fetchBytes l.bytes.length =
    (l.bytes, m.jump (l.address + UInt16.ofNat l.bytes.length))
  length_eq : p.instruction.length = l.bytes.length
  prepare_eq : m.prepare = (.ok p, after)
  address_eq : p.address = l.address
  mnemonic_eq : p.instruction.mnemonic = mnemonic
  mode_eq : p.instruction.mode = operand.mode mnemonic
  means : operand.Means env p.instruction l.bytes
    (m.jump (l.address + UInt16.ofNat l.bytes.length)).registers p.argument after.registers
  after_eq : after = { m with registers := after.registers }
  step_eq : m.step = match after.stackFault? p with
    | some fault => (.error fault, after)
    | none => (.ok p.outcome, after.perform p)

end B33
