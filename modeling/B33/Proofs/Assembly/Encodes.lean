import B33.Assembly.Emission
import B33.Proofs.Except
import B33.Proofs.Instruction
import B33.Proofs.Assembly.Symbols
import B33.Proofs.Executable.Clip

/-!
# Statements and their bytes

The bytes that a statement stands for, said by rules and not by the walk that emits them. Names
stand for whatever an environment gives them. Emission follows the rules, and the size that the
layout reserves for a statement is the number of bytes that the rules give it.
-/
namespace B33.Assembly
open Source

/-- What names stand for. -/
abbrev Environment := String → Option Int

/-- The bytes after an opcode. `next` is the address of the next instruction. -/
inductive EncodesOperand (env : Environment) (next : Nat) (i : Instruction) :
    Operand → List UInt8 → Prop
  | inherent : EncodesOperand env next i .inherent []
  | byte {e : Expression} {v : Int} : i.operandLength = 1 → e.value env = .ok v →
      -128 ≤ v → v ≤ 0xFF → EncodesOperand env next i (.immediate e) [UInt8.ofInt v]
  | word {e : Expression} {v : Int} : i.operandLength ≠ 1 → e.value env = .ok v →
      -32768 ≤ v → v ≤ 0xFFFF →
      EncodesOperand env next i (.immediate e) (Executable.wordBytes (UInt16.ofInt v))
  | relative {e : Expression} {v : Int} : i.mode = .relative → e.value env = .ok v →
      -128 ≤ v - next → v - next ≤ 127 →
      EncodesOperand env next i (.address e) [UInt8.ofInt (v - next)]
  | absolute {e : Expression} {v : Int} : i.mode ≠ .relative → e.value env = .ok v →
      0 ≤ v → v ≤ 0xFFFF →
      EncodesOperand env next i (.address e) (Executable.wordBytes (UInt16.ofInt v))
  | indexed (form : IndexForm) : EncodesOperand env next i (.indexed form) [form.encode]

/-- A value that fits a byte, signed or unsigned. -/
def EncodesByte (env : Environment) (e : Expression) (b : UInt8) : Prop :=
  ∃ v, e.value env = .ok v ∧ -128 ≤ v ∧ v ≤ 0xFF ∧ b = UInt8.ofInt v

/-- The bytes of a statement at an address. -/
inductive Encodes (env : Environment) (address : UInt16) : Statement → List UInt8 → Prop
  | define {e : Expression} {v : Int} : e.value env = .ok v → -32768 ≤ v → v ≤ 0xFFFF →
      Encodes env address (.define e) []
  | instruction {m : Mnemonic} {operand : Operand} {i : Instruction} {bs : List UInt8} :
      Instruction.lookup m (operand.mode m) = some i →
      EncodesOperand env (address.toNat + i.length) i operand bs →
      Encodes env address (.instruction m operand) (i.opcode :: bs)
  | reserve {e : Expression} {v : Int} : e.value env = .ok v → 0 ≤ v → v ≤ 0xFFFF →
      Encodes env address (.reserve e) (List.replicate v.toNat 0)
  | string (s : String) : Encodes env address (.string s) (Executable.textBytes s ++ [0])
  | bytes {es : List Expression} {bs : List UInt8} : List.Forall₂ (EncodesByte env) es bs →
      Encodes env address (.bytes es) bs
  | finish : Encodes env address (.finish none) [Instruction.haltOpcode]
  | finishAt {e : Expression} {v : Int} : e.value env = .ok v → 0 ≤ v → v ≤ 0xFFFF →
      Encodes env address (.finish (some e)) [Instruction.haltOpcode]

/-- A value stays what it is when more names are known. -/
theorem value_mono {env env' : Environment} (h : ∀ name v, env name = some v → env' name = some v)
    {e : Expression} {v : Int} (hv : e.value env = .ok v) : e.value env' = .ok v := by
  cases e with
  | number n => exact hv
  | symbol name offset =>
      simp only [Expression.value] at hv ⊢
      cases hn : env name with
      | none => simp [hn] at hv
      | some w => simpa [hn, h name w hn] using hv

theorem checkRange_eq_ok_iff {v least greatest : Int} {u : Unit} :
    checkRange v least greatest = .ok u ↔ least ≤ v ∧ v ≤ greatest := by
  unfold checkRange
  split_ifs with h
  · exact iff_of_true rfl h
  · exact iff_of_false nofun h

theorem instructionOf_eq_ok_iff {m : Mnemonic} {operand : Operand} {i : Instruction} :
    instructionOf m operand = .ok i ↔ Instruction.lookup m (operand.mode m) = some i := by
  unfold instructionOf
  cases Instruction.lookup m (operand.mode m) with
  | none => simp
  | some j => simp

/-- A value is cut to a word or a byte only once its range is checked. -/
theorem ranged_eq_ok_iff {α : Type} {v least greatest : Int} {a b : α} :
    (checkRange v least greatest >>= fun _ => (pure a : Except Cause α)) = .ok b ↔
      least ≤ v ∧ v ≤ greatest ∧ b = a := by
  simp only [bind_eq_ok_iff, checkRange_eq_ok_iff, pure_eq_ok_iff]
  constructor
  · rintro ⟨_, ⟨h₁, h₂⟩, rfl⟩
    exact ⟨h₁, h₂, rfl⟩
  · rintro ⟨h₁, h₂, rfl⟩
    exact ⟨(), ⟨h₁, h₂⟩, rfl⟩

theorem byteOf_eq_ok_iff {v : Int} {b : UInt8} :
    byteOf v = .ok b ↔ -128 ≤ v ∧ v ≤ 0xFF ∧ b = UInt8.ofInt v := ranged_eq_ok_iff

theorem signedWordOf_eq_ok_iff {v : Int} {w : UInt16} :
    signedWordOf v = .ok w ↔ -32768 ≤ v ∧ v ≤ 0xFFFF ∧ w = UInt16.ofInt v := ranged_eq_ok_iff

theorem addressOf_eq_ok_iff {v : Int} {w : UInt16} :
    addressOf v = .ok w ↔ 0 ≤ v ∧ v ≤ 0xFFFF ∧ w = UInt16.ofInt v := ranged_eq_ok_iff

theorem displacementOf_eq_ok_iff {next : Nat} {target : Int} {b : UInt8} :
    displacementOf next target = .ok b ↔
      -128 ≤ target - next ∧ target - next ≤ 127 ∧ b = UInt8.ofInt (target - next) :=
  ranged_eq_ok_iff

section
variable {symbols : Symbols} {address : UInt16}

theorem emitInstruction_encodes {i : Instruction} {operand : Operand} {out : Emitted}
    (h : emitInstruction symbols address i operand = .ok out) :
    ∃ bs, out.bytes = i.opcode :: bs ∧
      EncodesOperand symbols.value? (address.toNat + i.length) i operand bs := by
  cases operand with
  | inherent =>
      cases h
      exact ⟨[], rfl, .inherent⟩
  | immediate e =>
      obtain ⟨v, hv, h⟩ := bind_eq_ok_iff.mp h
      split_ifs at h with hl
      · obtain ⟨b, hb, h⟩ := bind_eq_ok_iff.mp h
        obtain ⟨h₁, h₂, rfl⟩ := byteOf_eq_ok_iff.mp hb
        cases h
        exact ⟨_, rfl, .byte hl hv h₁ h₂⟩
      · obtain ⟨w, hw, h⟩ := bind_eq_ok_iff.mp h
        obtain ⟨h₁, h₂, rfl⟩ := signedWordOf_eq_ok_iff.mp hw
        cases h
        exact ⟨_, rfl, .word hl hv h₁ h₂⟩
  | address e =>
      obtain ⟨v, hv, h⟩ := bind_eq_ok_iff.mp h
      split_ifs at h with hm
      · obtain ⟨b, hb, h⟩ := bind_eq_ok_iff.mp h
        obtain ⟨h₁, h₂, rfl⟩ := displacementOf_eq_ok_iff.mp hb
        cases h
        exact ⟨_, rfl, .relative hm hv h₁ h₂⟩
      · obtain ⟨w, hw, h⟩ := bind_eq_ok_iff.mp h
        obtain ⟨h₁, h₂, rfl⟩ := addressOf_eq_ok_iff.mp hw
        cases h
        exact ⟨_, rfl, .absolute hm hv h₁ h₂⟩
  | indexed form =>
      cases h
      exact ⟨_, rfl, .indexed form⟩

theorem exists_emitInstruction {i : Instruction} {operand : Operand} {bs : List UInt8}
    (h : EncodesOperand symbols.value? (address.toNat + i.length) i operand bs) :
    ∃ out, emitInstruction symbols address i operand = .ok out ∧ out.bytes = i.opcode :: bs ∧
      out.entry = none := by
  cases h with
  | inherent => exact ⟨_, rfl, rfl, rfl⟩
  | byte hl hv h₁ h₂ =>
      have hb := byteOf_eq_ok_iff.mpr ⟨h₁, h₂, rfl⟩
      simp only [emitInstruction, hv, if_pos hl, hb, ok_bind]
      exact ⟨_, rfl, rfl, rfl⟩
  | word hl hv h₁ h₂ =>
      have hw := signedWordOf_eq_ok_iff.mpr ⟨h₁, h₂, rfl⟩
      simp only [emitInstruction, hv, if_neg hl, hw, ok_bind]
      exact ⟨_, rfl, rfl, rfl⟩
  | relative hm hv h₁ h₂ =>
      have hb := displacementOf_eq_ok_iff.mpr ⟨h₁, h₂, rfl⟩
      simp only [emitInstruction, hv, if_pos hm, hb, ok_bind]
      exact ⟨_, rfl, rfl, rfl⟩
  | absolute hm hv h₁ h₂ =>
      have hw := addressOf_eq_ok_iff.mpr ⟨h₁, h₂, rfl⟩
      simp only [emitInstruction, hv, if_neg hm, hw, ok_bind]
      exact ⟨_, rfl, rfl, rfl⟩
  | indexed form => exact ⟨_, rfl, rfl, rfl⟩

/-- Emission follows the rules for a statement whose size is settled. A definition is not looked at
again, and neither is the range of a number of bytes to reserve: both were checked in the layout. -/
theorem emitStatement_encodes {s : Statement} {size : Nat} {out : Emitted}
    (hd : ∀ e, s ≠ .define e) (hs : sizeOf symbols s = .ok size)
    (h : emitStatement symbols address s = .ok out) :
    Encodes symbols.value? address s out.bytes := by
  cases s with
  | define e => exact (hd e rfl).elim
  | instruction m operand =>
      obtain ⟨i, hi, h⟩ := bind_eq_ok_iff.mp h
      obtain ⟨bs, hbs, ho⟩ := emitInstruction_encodes h
      rw [hbs]
      exact .instruction (instructionOf_eq_ok_iff.mp hi) ho
  | reserve e =>
      -- Both walks evaluate the same expression, but only the first one checks the range.
      obtain ⟨v, hv, h⟩ := bind_eq_ok_iff.mp h
      obtain ⟨w, hw, hs⟩ := bind_eq_ok_iff.mp hs
      obtain ⟨_, hr, -⟩ := bind_eq_ok_iff.mp hs
      obtain rfl : v = w := by simpa [hv] using hw
      obtain ⟨h₁, h₂⟩ := checkRange_eq_ok_iff.mp hr
      cases h
      exact .reserve hv h₁ h₂
  | string s =>
      cases h
      exact .string s
  | bytes es =>
      obtain ⟨bs, hbs, h⟩ := bind_eq_ok_iff.mp h
      cases h
      refine .bytes ((mapM_eq_ok_iff.mp hbs).imp ?_)
      intro e b hb
      obtain ⟨v, hv, hb⟩ := bind_eq_ok_iff.mp hb
      exact ⟨v, hv, byteOf_eq_ok_iff.mp hb⟩
  | finish e =>
      cases e with
      | none =>
          cases h
          exact .finish
      | some e =>
          obtain ⟨v, hv, h⟩ := bind_eq_ok_iff.mp h
          obtain ⟨w, hw, h⟩ := bind_eq_ok_iff.mp h
          obtain ⟨h₁, h₂, -⟩ := addressOf_eq_ok_iff.mp hw
          cases h
          exact .finishAt hv h₁ h₂

/-- What the rules give bytes to is emitted, and only the end of the source names an entry. -/
theorem exists_emitStatement {s : Statement} {bs : List UInt8}
    (h : Encodes symbols.value? address s bs) :
    ∃ out, emitStatement symbols address s = .ok out ∧ out.bytes = bs ∧
      ((∀ e, s ≠ .finish e) → out.entry = none) := by
  cases h with
  | define => exact ⟨_, rfl, rfl, fun _ => rfl⟩
  | instruction hi ho =>
      obtain ⟨out, hout, hbs, hentry⟩ := exists_emitInstruction ho
      exact ⟨out, bind_eq_ok_iff.mpr ⟨_, instructionOf_eq_ok_iff.mpr hi, hout⟩, hbs,
        fun _ => hentry⟩
  | reserve hv => exact ⟨_, bind_eq_ok_iff.mpr ⟨_, hv, rfl⟩, rfl, fun _ => rfl⟩
  | string s => exact ⟨_, rfl, rfl, fun _ => rfl⟩
  | bytes hs =>
      refine ⟨_, bind_eq_ok_iff.mpr ⟨_, mapM_eq_ok_iff.mpr (hs.imp ?_), rfl⟩, rfl, fun _ => rfl⟩
      rintro e b ⟨v, hv, hb⟩
      exact bind_eq_ok_iff.mpr ⟨v, hv, byteOf_eq_ok_iff.mpr hb⟩
  | finish => exact ⟨_, rfl, rfl, fun h => (h _ rfl).elim⟩
  | finishAt hv h₁ h₂ =>
      have hw := addressOf_eq_ok_iff.mpr ⟨h₁, h₂, rfl⟩
      simp only [emitStatement, hv, hw, ok_bind]
      exact ⟨_, rfl, rfl, fun h => (h _ rfl).elim⟩

theorem EncodesOperand.length_eq {env : Environment} {next : Nat} {m : Mnemonic} {i : Instruction}
    {operand : Operand} {bs : List UInt8} (hi : Instruction.lookup m (operand.mode m) = some i)
    (h : EncodesOperand env next i operand bs) : bs.length = i.operandLength := by
  obtain ⟨ht, rfl, hm⟩ := Instruction.lookup_eq_some_iff.mp hi
  have hl := Instruction.operandLength_eq ht
  rw [hm] at hl
  cases h with
  | inherent => exact hl.symm
  | byte h₁ => exact h₁.symm
  | word h₁ =>
      have := Instruction.immediateLength_eq i.mnemonic
      simp only [Operand.mode, Instruction.operandLengthOf] at hl
      simp only [Executable.wordBytes, List.length_cons, List.length_nil]
      omega
  | relative hr =>
      rw [← hm, hr] at hl
      exact hl.symm
  | absolute hr =>
      have hb : i.mnemonic.isBranch = false := by
        rw [Bool.eq_false_iff, ne_eq, Instruction.isBranch_iff ht]
        exact hr
      simp only [Operand.mode, hb, Bool.false_eq_true, if_false, Instruction.operandLengthOf] at hl
      exact hl.symm
  | indexed form => exact hl.symm

theorem Encodes.sizeOf_eq {s : Statement} {bs : List UInt8}
    (h : Encodes symbols.value? address s bs) : sizeOf symbols s = .ok bs.length := by
  cases h with
  | define => rfl
  | instruction hi ho =>
      simp only [sizeOf, instructionOf_eq_ok_iff.mpr hi, Except.map, List.length_cons,
        ho.length_eq hi, Instruction.length]
      rw [Nat.add_comm]
  | reserve hv h₁ h₂ =>
      simp only [sizeOf, hv, ok_bind, List.length_replicate]
      exact ranged_eq_ok_iff.mpr ⟨h₁, h₂, rfl⟩
  | string s => simp [sizeOf, Executable.length_textBytes]
  | bytes hs => simp only [sizeOf, hs.length_eq]
  | finish => rfl
  | finishAt => rfl

end

end B33.Assembly
