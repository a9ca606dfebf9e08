import B33.Proofs.Analysis.Decode
import B33.Proofs.Source.Spelling

/-!
# Written operands

What the analysis writes for an operand is read as that operand: a number in hexadecimal, the name of
an address, or an index form.
-/
namespace B33.Analysis
open Source

/-- What a target is written as. -/
def targetExpression (placed : Placement) (address : UInt16) : Expression :=
  match placed address with
  | some name => .symbol name 0
  | none => .number address.toNat

/-- The operand that operand bytes are written as. -/
def operandOf (placed : Placement) (address : UInt16) (i : Instruction) : List UInt8 → Operand
  | [] => .inherent
  | [byte] =>
    match i.mode with
    | .relative => .address (targetExpression placed
        (Instruction.branchTarget (address + UInt16.ofNat i.length) byte))
    | .indexed =>
      match IndexForm.decode byte with
      | .ok form => .indexed form
      | .error _ => .inherent
    | _ => .immediate (.number byte.toNat)
  | low :: high :: _ =>
    match i.mode with
    | .immediate => .immediate (.number (wordOf high low).toNat)
    | _ => .address (targetExpression placed (wordOf high low))

/-- The statement that a decoded line is written as. -/
def statementOf (placed : Placement) (d : Decoded) : Statement :=
  match d.instruction with
  | none => .bytes (d.bytes.map fun b => .number b.toNat)
  | some i => .instruction i.mnemonic (operandOf placed d.address i d.bytes.tail)

theorem statementOf_cases (placed : Placement) (d : Decoded) :
    (∃ es, statementOf placed d = .bytes es) ∨
      ∃ m operand, statementOf placed d = .instruction m operand := by
  unfold statementOf
  split
  · exact .inl ⟨_, rfl⟩
  · exact .inr ⟨_, _, rfl⟩

theorem statementOf_ne_finish (placed : Placement) (d : Decoded) (e : Option Expression) :
    statementOf placed d ≠ .finish e := by
  rcases statementOf_cases placed d with ⟨es, h⟩ | ⟨m, operand, h⟩
  · simp [h]
  · simp [h]

theorem not_mem_form (form : IndexForm) : '\n' ∉ form.text.toList := by
  have name (r : Register) : '\n' ∉ r.name.toList := (isWord_register r).not_mem rfl
  have hoffset : '\n' ∉ ((form.offset.map Register.name).getD "").toList := by
    cases form.offset with
    | none => exact List.not_mem_nil
    | some r => exact name r
  have hstepped : '\n' ∉ form.steppedText := by
    unfold IndexForm.steppedText
    cases form.step with
    | none => exact name _
    | inc n => simp [name]
    | dec n => simp [name]
  rw [form.toList_text]
  simp [hoffset, hstepped]

theorem fallsInto_word (w : UInt16) :
    FallsInto ('$' :: (Numeral.word w).toList) (Spells (.number w.toNat)) :=
  fallsInto_hex (Nat.lt_trans w.toNat_lt (by decide))

theorem fallsInto_byte (b : UInt8) :
    FallsInto ('$' :: (Numeral.byte b).toList) (Spells (.number b.toNat)) :=
  fallsInto_hex (Nat.lt_trans b.toNat_lt (by decide))

section
variable {placed : Placement} (hplaced : ∀ address name, placed address = some name → IsName name)
include hplaced

theorem fallsInto_target (address : UInt16) :
    FallsInto (targetText placed address).toList (Spells (targetExpression placed address)) := by
  unfold targetExpression targetText
  cases hp : placed address with
  | none =>
      have hword := fallsInto_word address
      simpa using hword
  | some name => exact fallsInto_name (hplaced address name hp)

theorem fallsInto_operand {address : UInt16} {i : Instruction} {operand : List UInt8}
    (hindex : ∀ byte, i.mode = .indexed → operand = [byte] →
      ∃ form, IndexForm.decode byte = .ok form) (hne : operand ≠ []) :
    FallsInto (operandText placed address i operand).toList
      (SpellsOperand (operandOf placed address i operand)) := by
  have target (a : UInt16) : FallsInto (targetText placed a).toList
      (SpellsOperand (.address (targetExpression placed a))) :=
    (fallsInto_target hplaced a).mono fun _ => .address
  match operand with
  | [] => exact absurd rfl hne
  | [byte] =>
      have value : FallsInto ("#$" ++ Numeral.byte byte).toList
          (SpellsOperand (.immediate (.number byte.toNat))) := by
        have hbyte := (fallsInto_byte byte).immediate
        simpa using hbyte
      unfold operandOf operandText
      cases hmode : i.mode with
      | relative => exact target _
      | indexed =>
          obtain ⟨form, hform⟩ := hindex byte hmode rfl
          simp only [hform]
          exact fallsInto_form ⟨_, _, _, IndexForm.ofParts_of_decode hform⟩
      | immediate => exact value
      | extended => exact value
      | inherent => exact value
  | low :: high :: more =>
      unfold operandOf operandText
      cases hmode : i.mode with
      | immediate =>
          have hword := (fallsInto_word (wordOf high low)).immediate
          simpa using hword
      | relative => exact target _
      | indexed => exact target _
      | extended => exact target _
      | inherent => exact target _

theorem not_mem_targetText (address : UInt16) : '\n' ∉ (targetText placed address).toList := by
  unfold targetText
  cases hp : placed address with
  | none => simp [Numeral.word, Numeral.not_mem_hex _ _ (c := '\n') rfl]
  | some name => exact (hplaced address name hp).not_mem rfl

theorem not_mem_operandText (address : UInt16) (i : Instruction) (operand : List UInt8) :
    '\n' ∉ (operandText placed address i operand).toList := by
  have value (b : UInt8) : '\n' ∉ ("#$" ++ Numeral.byte b).toList := by
    simp [Numeral.byte, Numeral.not_mem_hex _ _ (c := '\n') rfl]
  have target (a : UInt16) := not_mem_targetText hplaced a
  match operand with
  | [] => exact List.not_mem_nil
  | [byte] =>
      unfold operandText
      cases i.mode with
      | relative => exact target _
      | indexed =>
          dsimp only
          split
          · next form _ => exact not_mem_form form
          · simp [Numeral.byte, Numeral.not_mem_hex _ _ (c := '\n') rfl]
      | immediate => exact value byte
      | extended => exact value byte
      | inherent => exact value byte
  | low :: high :: more =>
      unfold operandText
      cases i.mode with
      | immediate => simp [Numeral.word, Numeral.not_mem_hex _ _ (c := '\n') rfl]
      | relative => exact target _
      | indexed => exact target _
      | extended => exact target _
      | inherent => exact target _

end

end B33.Analysis
