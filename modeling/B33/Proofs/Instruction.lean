import B33.Instruction
import B33.IndexForm
import B33.Proofs.Register

/-!
# The instruction set as a code

Opcodes and instructions determine each other, and so do index bytes and legal index forms. How many
bytes an operand takes follows from the addressing mode, and for a value from the register.
-/
namespace B33

theorem Mnemonic.mem_all (m : Mnemonic) : m ∈ all := by
  cases m
  all_goals first
    | decide
    | rename_i r
      cases r <;> decide
    | rename_i op r
      cases op <;> cases r <;> decide

namespace Instruction

/-- The number of operand bytes of a mnemonic in a mode. -/
def operandLengthOf (m : Mnemonic) : Mode → Nat
  | .inherent => 0
  | .immediate => immediateLength m
  | .extended => 2
  | .indexed | .relative => 1

theorem immediateLength_eq (m : Mnemonic) : immediateLength m = 1 ∨ immediateLength m = 2 := by
  unfold immediateLength
  split
  · split
    · exact .inr rfl
    · exact .inl rfl
  · exact .inl rfl

/-- Opcodes tell the rows of the table apart, and so do mnemonics with their modes. Operands take the
bytes that their mode asks for, an immediate operand takes as many as its value has, and branches are
the instructions with a relative operand. -/
theorem rows : ∀ i ∈ table, table.find? (·.opcode.toNat == i.opcode.toNat) = some i ∧
    lookup i.mnemonic i.mode = some i ∧ i.operandLength = operandLengthOf i.mnemonic i.mode ∧
    (i.mode = .immediate → (i.operandLength = 1 ↔ i.width = .byte)) ∧
    (i.mnemonic.isBranch = true ↔ i.mode = .relative) := by
  decide +kernel

theorem decode_eq_find? (opcode : UInt8) :
    decode opcode = table.find? (·.opcode.toNat == opcode.toNat) :=
  Vector.getElem_ofFn opcode.toNat_lt

theorem decode_opcode {i : Instruction} (h : i ∈ table) : decode i.opcode = some i := by
  rw [decode_eq_find?, (rows i h).1]

theorem lookup_eq_some_iff {m : Mnemonic} {mode : Mode} {i : Instruction} :
    lookup m mode = some i ↔ i ∈ table ∧ i.mnemonic = m ∧ i.mode = mode := by
  constructor
  · intro h
    have hm := List.mem_of_find?_eq_some h
    have hp := List.find?_some h
    simp only [Bool.and_eq_true, beq_iff_eq] at hp
    exact ⟨hm, hp⟩
  · rintro ⟨hm, rfl, rfl⟩
    exact (rows i hm).2.1

theorem decode_eq_some_iff {opcode : UInt8} {i : Instruction} :
    decode opcode = some i ↔ i ∈ table ∧ i.opcode = opcode := by
  constructor
  · intro h
    rw [decode_eq_find?] at h
    have hp := List.find?_some h
    simp only [beq_iff_eq] at hp
    exact ⟨List.mem_of_find?_eq_some h, UInt8.toNat_inj.mp hp⟩
  · rintro ⟨hm, rfl⟩
    exact decode_opcode hm

section
variable {i : Instruction} (h : i ∈ table)
include h

theorem operandLength_eq : i.operandLength = operandLengthOf i.mnemonic i.mode := (rows i h).2.2.1

theorem operandLength_ne_zero (hmode : i.mode ≠ .inherent) : i.operandLength ≠ 0 := by
  have himmediate := immediateLength_eq i.mnemonic
  rw [operandLength_eq h]
  cases hm : i.mode with
  | inherent => exact (hmode hm).elim
  | immediate =>
      rw [operandLengthOf]
      omega
  | _ => simp [operandLengthOf]

theorem operandLength_le_two : i.operandLength ≤ 2 := by
  have himmediate := immediateLength_eq i.mnemonic
  rw [operandLength_eq h]
  cases i.mode with
  | immediate =>
      rw [operandLengthOf]
      omega
  | _ => simp [operandLengthOf]

/-- Branches are the instructions with a relative operand, and have no other. -/
theorem isBranch_iff : i.mnemonic.isBranch = true ↔ i.mode = .relative := (rows i h).2.2.2.2

/-- An immediate operand takes as many bytes as its value has. -/
theorem operandLength_eq_one_iff (hm : i.mode = .immediate) :
    i.operandLength = 1 ↔ i.width = .byte := (rows i h).2.2.2.1 hm

end

/-- A branch goes as far from the next instruction as its displacement says. -/
theorem branchTarget_ofInt {n : Nat} {d : Int} (h₁ : -128 ≤ d) (h₂ : d ≤ 127) :
    branchTarget (UInt16.ofNat n) (UInt8.ofInt d) = UInt16.ofInt (n + d) := by
  have h16 : (Int16.ofInt d).toUInt16 = UInt16.ofInt d := by
    apply UInt16.toBitVec_inj.mp
    show BitVec.ofInt 16 d = (UInt16.ofInt d).toBitVec
    apply BitVec.eq_of_toNat_eq
    simp [UInt16.ofInt]
    omega
  have hn : UInt16.ofInt (n : Int) = UInt16.ofNat n := by
    apply UInt16.toNat_inj.mp
    simp [UInt16.ofInt]
    omega
  rw [branchTarget, toInt8_ofInt, Int8.toInt16_ofInt h₁ h₂, h16, UInt16.ofInt_add, hn]

/-- A branch goes to its destination, modulo the size of memory. -/
theorem toNat_branchTarget (address : UInt16) (n : Nat) (displacement : UInt8) :
    ((branchTarget (address + UInt16.ofNat n) displacement).toNat : Int) =
      (address.toNat + n + displacement.toInt8.toInt) % 65536 := by
  have h₁ := displacement.toInt8.le_toInt
  have h₂ := displacement.toInt8.toInt_lt
  have hnext : address + UInt16.ofNat n = UInt16.ofNat (address.toNat + n) := by
    rw [UInt16.ofNat_add, UInt16.ofNat_toNat]
  have htarget := @branchTarget_ofInt (address.toNat + n) displacement.toInt8.toInt
    (by omega) (by omega)
  rw [ofInt_toInt8] at htarget
  rw [hnext, htarget, toNat_ofInt]
  push_cast
  rfl

end Instruction

namespace IndexForm

/-- An index form that can be written. -/
def Legal (f : IndexForm) : Prop := ∃ index offset step, ofParts index offset step = .ok f

theorem Legal.ofParts_eq {f : IndexForm} (h : f.Legal) : ofParts f.index f.offset f.step = .ok f := by
  obtain ⟨index, offset, step, h⟩ := h
  have hf : f = { index, offset, step } := by
    unfold ofParts at h
    split_ifs at h
    split at h <;> cases h
    rfl
  rw [hf] at h ⊢
  exact h

theorem Legal.parts {f : IndexForm} (h : f.Legal) :
    isIndex f.index = true ∧ (∀ r, f.offset = some r → isOffset r = true) ∧
      ∀ n, f.step.amount? = some n → n = 1 ∨ n = 2 := by
  obtain ⟨index, offset, step, h⟩ := h
  unfold ofParts at h
  split at h
  · cases h
  · next hindex =>
    split at h
    · cases h
    · cases h
    · next hoffset hamount =>
      cases h
      refine ⟨by simpa using hindex, ?_, ?_⟩
      · rintro r rfl
        simpa using hoffset
      · intro n hn
        have hor : ¬n = 1 → n = 2 := by simpa [hn, isAmount] using hamount
        by_cases h₁ : n = 1
        · exact .inl h₁
        · exact .inr (hor h₁)

/-- The byte of a legal form is the byte of no other. -/
theorem decode_encode_of_legal {f : IndexForm} (h : f.Legal) : decode f.encode = .ok f := by
  obtain ⟨hindex, hoffset, hamount⟩ := h.parts
  obtain ⟨index, offset, step⟩ := f
  have hsteps : step = .none ∨ step = .inc 1 ∨ step = .inc 2 ∨ step = .dec 1 ∨ step = .dec 2 := by
    cases step with
    | none => simp
    | inc n => simpa using hamount n rfl
    | dec n => simpa using hamount n rfl
  have hoffsets : offset = none ∨ offset = some .a ∨ offset = some .b ∨ offset = some .d := by
    cases offset with
    | none => simp
    | some r =>
        have hr := hoffset r rfl
        cases r <;> simp [isOffset] at hr ⊢
  have hindices : index = .x ∨ index = .y := by
    cases index <;> simp [isIndex] at hindex ⊢
  rcases hindices with rfl | rfl <;> rcases hoffsets with rfl | rfl | rfl | rfl <;>
    rcases hsteps with rfl | rfl | rfl | rfl | rfl <;> rfl

theorem mem_of_lookup {α : Type} {k : UInt8} {a : α} {bits : List (UInt8 × α)}
    (h : bits.lookup k = some a) : (k, a) ∈ bits := by
  obtain ⟨l₁, l₂, rfl, -⟩ := List.lookup_eq_some_iff.mp h
  simp

/-- The three fields of a byte, each out of its table. -/
theorem fields_of_decode {byte : UInt8} {f : IndexForm} (h : decode byte = .ok f) :
    (byte &&& 0x18, f.index) ∈ indexBits ∧ (byte &&& 0x07, f.offset) ∈ offsetBits ∧
      (byte &&& 0xE0, f.step) ∈ stepBits := by
  unfold decode at h
  split at h
  · next hindex hoffset hstep =>
    cases h
    exact ⟨mem_of_lookup hindex, mem_of_lookup hoffset, mem_of_lookup hstep⟩
  · cases h

theorem encode_decode {byte : UInt8} {f : IndexForm} (h : decode byte = .ok f) :
    f.encode = byte := by
  obtain ⟨hindex, hoffset, hstep⟩ := fields_of_decode h
  have index : ∀ x ∈ indexBits, indexCode x.2 = x.1 := by decide
  have offset : ∀ x ∈ offsetBits, offsetCode x.2 = x.1 := by decide
  have step : ∀ x ∈ stepBits, stepCode x.2 = x.1 := by decide
  have hi := index _ hindex
  have ho := offset _ hoffset
  have hs := step _ hstep
  dsimp only at hi ho hs
  have whole : ∀ n < 256, UInt8.ofNat n &&& 0x18 ||| UInt8.ofNat n &&& 0x07 |||
      UInt8.ofNat n &&& 0xE0 = UInt8.ofNat n := by decide +kernel
  have hwhole := whole byte.toNat byte.toNat_lt
  rw [UInt8.ofNat_toNat] at hwhole
  rw [encode, hi, ho, hs, hwhole]

/-- What a byte encodes is made of legal parts. -/
theorem ofParts_of_decode {byte : UInt8} {f : IndexForm} (h : decode byte = .ok f) :
    ofParts f.index f.offset f.step = .ok f := by
  obtain ⟨hindex, hoffset, hstep⟩ := fields_of_decode h
  have index : ∀ x ∈ indexBits, isIndex x.2 = true := by decide
  have offset : ∀ x ∈ offsetBits, x.2.filter (!isOffset ·) = none := by decide
  have step : ∀ x ∈ stepBits, x.2.amount?.filter (!isAmount ·) = none := by decide
  have hi := index _ hindex
  have ho := offset _ hoffset
  have hs := step _ hstep
  dsimp only at hi ho hs
  rw [ofParts, hi, ho, hs]
  rfl

end IndexForm

end B33
