import B33.Proofs.Analysis.Operand
import B33.Proofs.Text.Lines

/-!
# The source text of a program

A program written as source text is a header and then, for each decoded line, its label if it has one
and its statement with a note. Each of these is a line of its own, and is read as what it was written
for. The note is a comment, so that nothing in it matters.
-/
namespace B33.Analysis
open Source

/-- A statement that is spelled out within one line. -/
structure Spelled (text : List Char) (s : Statement) : Prop where
  line : '\n' ∉ text
  spellsOut : SpellsOut false text s

/-- A word, a blank and what belongs to the word. -/
theorem Spelled.of_word {word : String} {kind : TokenKind} {tail : List Char} {s : Statement}
    (hw : IsWord word kind) (hline : '\n' ∉ tail)
    (h : FallsInto tail (SpellsStatement false s kind)) :
    Spelled (word.toList ++ ' ' :: tail) s :=
  ⟨by simp [hw.not_mem (x := '\n') rfl, hline], SpellsOut.of_tail (n := 1) hw (by decide) h⟩

theorem spelled_data (placed : Placement) (address : UInt16) (byte : UInt8) :
    Spelled (describe placed ⟨address, none, [byte]⟩).1.toList
      (statementOf placed ⟨address, none, [byte]⟩) := by
  have htext : (describe placed ⟨address, none, [byte]⟩).1.toList =
      Directive.chr.name.toList ++ ' ' :: '$' :: (Numeral.byte byte).toList := by
    simp [describe, Directive.name]
  rw [htext]
  have hline : '\n' ∉ '$' :: (Numeral.byte byte).toList := by
    simp [Numeral.byte, Numeral.not_mem_hex _ _ (c := '\n') rfl]
  refine .of_word isWord_directive hline ((fallsInto_byte byte).mono fun ks hks => ?_)
  have hbytes : SpellsDirective false .chr (.bytes [.number byte.toNat]) (ks ++ []) :=
    .bytes hks .nil
  rw [List.append_nil] at hbytes
  exact .directive hbytes

section
variable {placed : Placement} (hplaced : ∀ address name, placed address = some name → IsName name)
include hplaced

theorem isEmpty_operandText {address : UInt16} {i : Instruction} {operand : List UInt8}
    (hindex : ∀ byte, i.mode = .indexed → operand = [byte] →
      ∃ form, IndexForm.decode byte = .ok form) (hne : operand ≠ []) :
    (operandText placed address i operand).isEmpty = false := by
  have hfalls : FallsInto (operandText placed address i operand).toList _ :=
    fallsInto_operand hplaced hindex hne
  rw [Bool.eq_false_iff]
  intro hempty
  rw [String.isEmpty_iff.mp hempty] at hfalls
  exact hfalls.ne_nil rfl

theorem spelled_instruction {address : UInt16} {i : Instruction} {operand : List UInt8}
    (hindex : ∀ byte, i.mode = .indexed → operand = [byte] →
      ∃ form, IndexForm.decode byte = .ok form) :
    Spelled (describe placed ⟨address, some i, i.opcode :: operand⟩).1.toList
      (statementOf placed ⟨address, some i, i.opcode :: operand⟩) := by
  have hmnemonic := isWord_mnemonic i.mnemonic
  by_cases hne : operand = []
  · subst hne
    have htext : (describe placed ⟨address, some i, [i.opcode]⟩).1 = i.mnemonic.name := rfl
    rw [htext]
    exact ⟨hmnemonic.not_mem rfl, .of_word hmnemonic (.instruction _ .inherent)⟩
  · have hnonempty : (operandText placed address i operand).isEmpty = false :=
      isEmpty_operandText hplaced hindex hne
    have htext : (describe placed ⟨address, some i, i.opcode :: operand⟩).1.toList =
        i.mnemonic.name.toList ++ ' ' :: (operandText placed address i operand).toList := by
      simp only [describe, List.tail_cons, hnonempty]
      simp
    rw [htext]
    have hline := not_mem_operandText hplaced address i operand
    exact .of_word hmnemonic hline
      ((fallsInto_operand hplaced hindex hne).mono fun _ => .instruction _)

/-- What a decoded line is described as is its statement. -/
theorem spelled_describe {d : Decoded} (hd : d.Valid) :
    Spelled (describe placed d).1.toList (statementOf placed d) := by
  cases hd with
  | data address byte => exact spelled_data placed address byte
  | instruction address _ _ hindex => exact spelled_instruction hplaced hindex

/-- The end of the source with the entry. -/
theorem spelled_finish (entry : UInt16) :
    Spelled ("END " ++ targetText placed entry).toList
      (.finish (some (targetExpression placed entry))) := by
  have htext : ("END " ++ targetText placed entry).toList =
      Directive.finish.name.toList ++ ' ' :: (targetText placed entry).toList := by
    simp [Directive.name]
  rw [htext]
  have hline := not_mem_targetText hplaced entry
  exact .of_word isWord_directive hline
    ((fallsInto_target hplaced entry).mono fun _ hks => .directive (.finishAt hks))

/-- No description breaks its line. -/
theorem not_mem_describe (d : Decoded) : '\n' ∉ (describe placed d).2.toList := by
  have hregister (r : Register) : '\n' ∉ r.name.toList := (isWord_register r).not_mem rfl
  unfold describe
  cases d.instruction with
  | none => simp
  | some i =>
      have hoperand := not_mem_operandText hplaced d.address i d.bytes.tail
      dsimp only
      rw [Instruction.describe]
      unfold Mnemonic.template
      split <;> simp [Template.fill, hregister, hoperand]

end

end B33.Analysis
