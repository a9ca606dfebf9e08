import B33.Proofs.Analysis.Operand
import B33.Proofs.Assembly.Encodes

/-!
# The bytes of decoded lines

The statement that a decoded line is written as stands for the bytes that the line was decoded from,
but for a branch that leaves memory at one end and comes back at the other. The source has no way to
say where such a branch goes: its distance is too large.
-/
namespace B33
open Assembly Source

/-- Where a branch goes by its displacement: a number, which need not be an address. -/
def Decoded.destination? (d : Decoded) : Option Int :=
  match d.instruction, d.bytes with
  | some i, [_, displacement] =>
    if i.mode = .relative then some (d.address.toNat + i.length + displacement.toInt8.toInt)
    else none
  | _, _ => none

/-- Whether a decoded line is a branch out of memory. -/
def Decoded.Wraps (d : Decoded) : Prop := ∃ v ∈ d.destination?, ¬(0 ≤ v ∧ v ≤ 0xFFFF)

instance (d : Decoded) : Decidable d.Wraps := inferInstanceAs (Decidable (∃ v ∈ _, _))

namespace Analysis

/-- Bytes of which the mode of an instruction has as many. -/
inductive FitsMode (i : Instruction) : List UInt8 → Prop
  | inherent : i.mode = .inherent → FitsMode i []
  | byte (b : UInt8) : i.mode = .immediate → i.operandLength = 1 → FitsMode i [b]
  | word (low high : UInt8) : i.mode = .immediate → i.operandLength ≠ 1 → FitsMode i [low, high]
  | extended (low high : UInt8) : i.mode = .extended → FitsMode i [low, high]
  | indexed (b : UInt8) : i.mode = .indexed → FitsMode i [b]
  | relative (b : UInt8) : i.mode = .relative → FitsMode i [b]

theorem fitsMode {i : Instruction} {operand : List UInt8} (ht : i ∈ Instruction.table)
    (hl : operand.length = i.operandLength) : FitsMode i operand := by
  have hlength := Instruction.operandLength_eq ht
  cases hmode : i.mode with
  | inherent =>
      rw [hlength, hmode] at hl
      rw [List.length_eq_zero_iff.mp hl]
      exact .inherent hmode
  | immediate =>
      rw [hmode] at hlength
      rcases Instruction.immediateLength_eq i.mnemonic with h | h
      · have hone : i.operandLength = 1 := hlength.trans h
        rw [hone, List.length_eq_one_iff] at hl
        obtain ⟨b, rfl⟩ := hl
        exact .byte b hmode hone
      · have htwo : i.operandLength = 2 := hlength.trans h
        rw [htwo, List.length_eq_two] at hl
        obtain ⟨low, high, rfl⟩ := hl
        exact .word low high hmode (by omega)
  | extended =>
      rw [hlength, hmode] at hl
      obtain ⟨low, high, rfl⟩ := List.length_eq_two.mp hl
      exact .extended low high hmode
  | indexed =>
      rw [hlength, hmode] at hl
      obtain ⟨b, rfl⟩ := List.length_eq_one_iff.mp hl
      exact .indexed b hmode
  | relative =>
      rw [hlength, hmode] at hl
      obtain ⟨b, rfl⟩ := List.length_eq_one_iff.mp hl
      exact .relative b hmode

section
variable {placed : Placement} {address : UInt16} {i : Instruction} {operand : List UInt8}
  (ht : i ∈ Instruction.table) (hl : operand.length = i.operandLength)
  (hindex : ∀ byte, i.mode = .indexed → operand = [byte] →
    ∃ form, IndexForm.decode byte = .ok form)
include ht hl hindex

/-- The written operand has the mode of the instruction. -/
theorem mode_operandOf : (operandOf placed address i operand).mode i.mnemonic = i.mode := by
  have hbranch := Instruction.isBranch_iff ht
  cases fitsMode ht hl with
  | inherent hm => rw [hm, operandOf, Operand.mode]
  | byte b hm => simp only [operandOf, hm, Operand.mode]
  | word low high hm => simp only [operandOf, hm, Operand.mode]
  | extended low high hm =>
      rw [hm] at hbranch
      simp only [operandOf, hm, Operand.mode]
      rw [if_neg (by simp [hbranch])]
  | indexed b hm =>
      obtain ⟨form, hform⟩ := hindex b hm rfl
      simp only [operandOf, hm, hform, Operand.mode]
  | relative b hm =>
      simp only [operandOf, hm, Operand.mode]
      rw [if_pos (hbranch.mpr hm)]

theorem lookup_operandOf :
    Instruction.lookup i.mnemonic ((operandOf placed address i operand).mode i.mnemonic) =
      some i := by
  rw [mode_operandOf ht hl hindex]
  exact Instruction.lookup_eq_some_iff.mpr ⟨ht, rfl, rfl⟩

end

theorem sizeOf_statementOf {placed : Placement} {d : Decoded} (hd : d.Valid) (symbols : Symbols) :
    Assembly.sizeOf symbols (statementOf placed d) = .ok d.bytes.length := by
  cases hd with
  | data address byte => rfl
  | instruction address ht hl hindex =>
      have hi := instructionOf_eq_ok_iff.mpr (@lookup_operandOf placed address _ _ ht hl hindex)
      simp only [statementOf, Assembly.sizeOf, List.tail_cons, hi, Except.map, List.length_cons, hl,
        Instruction.length]
      rw [Nat.add_comm]

section
variable {placed : Placement} {env : Environment}
  (henv : ∀ address name, placed address = some name → env name = some (address.toNat : Int))
include henv

theorem value_targetExpression (address : UInt16) :
    (targetExpression placed address).value env = .ok (address.toNat : Int) := by
  unfold targetExpression
  cases hp : placed address with
  | none => rfl
  | some name => simp [Expression.value, henv address name hp]

end

section
variable {placed : Placement} {env : Environment}
  (henv : ∀ address name, placed address = some name → env name = some (address.toNat : Int))
include henv

theorem encodes_operandOf {address : UInt16} {i : Instruction} {operand : List UInt8}
    (ht : i ∈ Instruction.table) (hl : operand.length = i.operandLength)
    (hindex : ∀ byte, i.mode = .indexed → operand = [byte] →
      ∃ form, IndexForm.decode byte = .ok form)
    (hw : ¬(Decoded.mk address (some i) (i.opcode :: operand)).Wraps) :
    EncodesOperand env (address.toNat + i.length) i (operandOf placed address i operand)
      operand := by
  cases fitsMode ht hl with
  | inherent => exact .inherent
  | byte b hm hone =>
      have hb := b.toNat_lt
      simp only [operandOf, hm]
      have h := @EncodesOperand.byte env (address.toNat + i.length) i (.number b.toNat) b.toNat
        hone rfl (by omega) (by omega)
      rwa [ofInt_toNat_byte] at h
  | word low high hm hone =>
      have hb := (wordOf high low).toNat_lt
      simp only [operandOf, hm]
      have h := @EncodesOperand.word env (address.toNat + i.length) i
        (.number (wordOf high low).toNat) (wordOf high low).toNat hone rfl (by omega) (by omega)
      rwa [ofInt_toNat, Executable.wordBytes, lowByte_wordOf, highByte_wordOf] at h
  | extended low high hm =>
      have hb := (wordOf high low).toNat_lt
      simp only [operandOf, hm]
      have h := @EncodesOperand.absolute env (address.toNat + i.length) i _ _ (by simp [hm])
        (value_targetExpression henv (wordOf high low)) (by omega) (by omega)
      rwa [ofInt_toNat, Executable.wordBytes, lowByte_wordOf, highByte_wordOf] at h
  | indexed b hm =>
      obtain ⟨form, hform⟩ := hindex b hm rfl
      simp only [operandOf, hm, hform]
      rw [← IndexForm.encode_decode hform]
      exact .indexed form
  | relative b hm =>
      have h₁ := b.toInt8.le_toInt
      have h₂ := b.toInt8.toInt_lt
      have hinside : 0 ≤ address.toNat + i.length + b.toInt8.toInt ∧
          address.toNat + i.length + b.toInt8.toInt ≤ 0xFFFF := by
        by_contra hout
        exact hw ⟨_, by simp [Decoded.destination?, hm], hout⟩
      have htarget := Instruction.toNat_branchTarget address i.length b
      rw [Int.emod_eq_of_lt hinside.1 (by omega)] at htarget
      have hdistance : ((Instruction.branchTarget (address + UInt16.ofNat i.length) b).toNat : Int) -
          ((address.toNat + i.length : Nat) : Int) = b.toInt8.toInt := by omega
      have hvalue := value_targetExpression henv
        (Instruction.branchTarget (address + UInt16.ofNat i.length) b)
      have h := EncodesOperand.relative hm hvalue (by rw [hdistance]; omega)
        (by rw [hdistance]; omega)
      rw [hdistance, ofInt_toInt8] at h
      simp only [operandOf, hm]
      exact h

/-- A line stands for its bytes if it is no branch out of memory. -/
theorem encodes_statementOf {d : Decoded} (hd : d.Valid) (hw : ¬d.Wraps) :
    Encodes env d.address (statementOf placed d) d.bytes := by
  cases hd with
  | data address byte =>
      have hb := byte.toNat_lt
      exact .bytes (.cons ⟨byte.toNat, rfl, by omega, by omega, (ofInt_toNat_byte byte).symm⟩ .nil)
  | instruction address ht hl hindex =>
      exact .instruction (lookup_operandOf ht hl hindex) (encodes_operandOf henv ht hl hindex hw)

end

/-- A branch out of memory is refused: from where it stands, its target is too far away. -/
theorem emitStatement_of_wraps {placed : Placement} {symbols : Symbols}
    (henv : ∀ address name, placed address = some name →
      symbols.value? name = some (address.toNat : Int))
    {d : Decoded} (hd : d.Valid) {v : Int} (hv : v ∈ d.destination?)
    (hout : ¬(0 ≤ v ∧ v ≤ 0xFFFF)) :
    emitStatement symbols d.address (statementOf placed d) =
      .error (.outOfRange (v % 65536 - (d.address.toNat + d.bytes.length)) (-128) 127) := by
  cases hd with
  | data address byte => cases hv
  | @instruction address i operand ht hl hindex =>
      have hi := instructionOf_eq_ok_iff.mpr (@lookup_operandOf placed address _ _ ht hl hindex)
      cases fitsMode ht hl with
      | relative b hm =>
          have h₁ := b.toInt8.le_toInt
          have h₂ := b.toInt8.toInt_lt
          have hvalue := value_targetExpression henv
            (Instruction.branchTarget (address + UInt16.ofNat i.length) b)
          have htarget := Instruction.toNat_branchTarget address i.length b
          have hsum : v = address.toNat + i.length + b.toInt8.toInt := by
            simpa [Decoded.destination?, hm] using hv.symm
          rw [← hsum] at htarget
          have hnext : i.length = 2 := by
            rw [Instruction.length, ← hl]
            rfl
          -- Modulo 65536 the target is at the other end of memory, about 65536 bytes from here.
          have hfar : ¬(-128 ≤ v % 65536 - ((address.toNat + i.length : Nat) : Int) ∧
              v % 65536 - ((address.toNat + i.length : Nat) : Int) ≤ 127) := by
            have := address.toNat_lt
            omega
          have hcheck : displacementOf (address.toNat + i.length) (v % 65536) =
              .error (.outOfRange (v % 65536 - (address.toNat + 2)) (-128) 127) := by
            rw [displacementOf, checkRange, if_neg hfar, hnext]
            rfl
          have hoperand : operandOf placed address i [b] = .address (targetExpression placed
              (Instruction.branchTarget (address + UInt16.ofNat i.length) b)) := by
            simp only [operandOf, hm]
          rw [hoperand] at hi
          simp only [statementOf, List.tail_cons, hoperand, emitStatement, hi, ok_bind,
            emitInstruction, hvalue, if_pos hm, htarget, hcheck]
          rfl
      | inherent hm => cases hv
      | byte b hm => simp [Decoded.destination?, hm] at hv
      | word low high hm => cases hv
      | extended low high hm => cases hv
      | indexed b hm => simp [Decoded.destination?, hm] at hv

end Analysis

end B33
