import B33.Proofs.Analysis.Encoding
import B33.Proofs.Analysis.Source
import B33.Proofs.Assembly.Image
import B33.Proofs.Assembly.Written
import B33.Proofs.Machine.Disassembly

/-!
# Disassembled text is assembled again

What an instruction in memory is shown as is a statement of the source language. Assembled at the
address of the instruction it gives the bytes there, unless it is a branch that leaves memory at one
end and comes back at the other. For such a branch the target is shown as the machine reaches it, and
from where the branch stands that is too far away to be written.
-/
namespace B33
open Assembly Source

namespace Assembly

variable {w : Written} {o : AssemblyOptions}

theorem writes_line (hline : splitLines w.text = [w.text])
    (hreads : ReadsAs w.text w.label w.statement) (hsized : w.Sized) (hlabel : w.label = none)
    (hfits : w.address.toNat + w.bytes.length ≤ 0x10000) (hsmall : w.bytes.length ≤ 0xFFFF) :
    Writes w.address w.text [w] := by
  have hcontiguous : Contiguous w.address.toNat [w] (w.address.toNat + w.bytes.length) :=
    .cons hsized UInt16.ofNat_toNat.symm (by simp [hlabel]) (.nil _)
  refine ⟨hline, ?_, List.forall_mem_nil _, ⟨_, hfits, by omega, hcontiguous⟩, by simp [hlabel]⟩
  intro x hx
  rw [List.mem_singleton.mp hx]
  exact hreads

theorem exists_assemble_line (h : Writes o.origin w.text [w])
    (hemits : ∀ symbols, w.Emits symbols) :
    ∃ a, assemble o w.text = .ok a ∧ a.program.bytes = w.bytes := by
  obtain ⟨l, hlayout, -, hlaid⟩ := h.exists_layout
  obtain ⟨a, ha, hbytes, -⟩ := exists_assemble_of_emits hlayout hlaid fun x hx => by
    rw [List.mem_singleton.mp hx]
    exact hemits l.symbols
  exact ⟨a, ha, by rw [hbytes, List.flatMap_singleton]⟩

theorem assemble_line_of_error {s : Statement} {cause : Cause} (h : Writes o.origin w.text [w])
    (hs : w.statement = some s)
    (hcause : ∀ symbols, emitStatement symbols w.address s = .error cause) :
    assemble o w.text = .error ⟨1, cause⟩ := by
  obtain ⟨l, hlayout, -, hlaid⟩ := h.exists_layout
  have hws : [w] = [] ++ w :: [] := rfl
  exact assemble_of_error hlayout hlaid hws (List.forall_mem_nil _) hs (hcause l.symbols)

end Assembly

namespace Machine

/-- The instruction at an address with its bytes. -/
def decodedAt (m : Machine) (address : UInt16) (i : Instruction) : Decoded :=
  ⟨address, some i, m.bus.bytesAt address i.length⟩

/-- An instruction can be shown at an address, and its bytes end in memory. -/
structure Holds (m : Machine) (address : UInt16) (i : Instruction) : Prop where
  decode : Instruction.decode (m.bus.inspect address) = some i
  legal : i.mode = .indexed → ∃ form, IndexForm.decode (m.bus.inspect (address + 1)) = .ok form
  fits : address.toNat + i.length ≤ 0x10000

variable {m : Machine} {address : UInt16} {i : Instruction}

namespace Holds

variable (h : m.Holds address i)
include h

theorem bytesAt_eq : m.bus.bytesAt address i.length =
    i.opcode :: m.bus.bytesAt (address + 1) i.operandLength := by
  rw [Instruction.length, Nat.add_comm, Bus.bytesAt_succ,
    (Instruction.decode_eq_some_iff.mp h.decode).2]

theorem legal_operand (byte : UInt8) (hmode : i.mode = .indexed)
    (hbyte : m.bus.bytesAt (address + 1) i.operandLength = [byte]) :
    ∃ form, IndexForm.decode byte = .ok form := by
  obtain ⟨htable, -⟩ := Instruction.decode_eq_some_iff.mp h.decode
  have hlength := Instruction.operandLength_eq htable
  rw [hmode, Instruction.operandLengthOf] at hlength
  rw [hlength, Bus.bytesAt_succ] at hbyte
  cases hbyte
  exact h.legal hmode

theorem valid : (m.decodedAt address i).Valid := by
  rw [decodedAt, h.bytesAt_eq]
  refine .instruction address (Instruction.decode_eq_some_iff.mp h.decode).1 ?_ h.legal_operand
  rw [Bus.bytesAt, List.length_map, List.length_range]

/-- The operand is shown as the analysis writes it where nothing has a label. -/
theorem operandText_eq (hne : i.mode ≠ .inherent) :
    Analysis.operandText (fun _ => none) address i
      (m.bus.bytesAt (address + 1) i.operandLength) = operandText m.bus address i := by
  obtain ⟨htable, -⟩ := Instruction.decode_eq_some_iff.mp h.decode
  have hlength := Instruction.operandLength_eq htable
  unfold operandText
  cases hmode : i.mode with
  | inherent => exact absurd hmode hne
  | immediate =>
      rw [hmode, Instruction.operandLengthOf] at hlength
      obtain hone | htwo := Instruction.immediateLength_eq i.mnemonic
      · rw [hlength, hone, Bus.bytesAt_one]
        simp only [Analysis.operandText, hmode, if_pos]
      · rw [hlength, htwo, Bus.bytesAt_two]
        simp only [Analysis.operandText, hmode]
        rfl
  | extended =>
      rw [hlength, hmode, Instruction.operandLengthOf, Bus.bytesAt_two]
      simp only [Analysis.operandText, hmode]
      rfl
  | relative =>
      rw [hmode, Instruction.operandLengthOf] at hlength
      rw [hlength, Bus.bytesAt_one]
      simp only [Analysis.operandText, hmode, Instruction.length, hlength]
      rfl
  | indexed =>
      obtain ⟨form, hform⟩ := h.legal hmode
      rw [hlength, hmode, Instruction.operandLengthOf, Bus.bytesAt_one]
      simp only [Analysis.operandText, hmode, hform]

/-- The text is what the analysis writes where nothing has a label. -/
theorem describe_eq :
    (Analysis.describe (fun _ => none) (m.decodedAt address i)).1 = m.disassemble address := by
  obtain ⟨htable, -⟩ := Instruction.decode_eq_some_iff.mp h.decode
  rw [disassemble_of_decode h.decode, decodedAt, h.bytesAt_eq]
  by_cases hmode : i.mode = .inherent
  · have hnone : m.bus.bytesAt (address + 1) i.operandLength = [] := by
      rw [Instruction.operandLength_eq htable, hmode]
      rfl
    rw [hnone, if_pos hmode]
    rfl
  · have hne : m.bus.bytesAt (address + 1) i.operandLength ≠ [] := by
      intro hnil
      apply Instruction.operandLength_ne_zero htable hmode
      rw [← List.length_eq_zero_iff.mpr hnil, Bus.bytesAt, List.length_map, List.length_range]
    have hempty : (Analysis.operandText (fun _ => none) address i
        (m.bus.bytesAt (address + 1) i.operandLength)).isEmpty = false :=
      Analysis.isEmpty_operandText (by simp) h.legal_operand hne
    rw [h.operandText_eq hmode] at hempty
    simp only [Analysis.describe, List.tail_cons, h.operandText_eq hmode, hempty, if_neg hmode]
    rfl

theorem length_le : i.length ≤ 3 := by
  have hle := Instruction.operandLength_le_two (Instruction.decode_eq_some_iff.mp h.decode).1
  rw [Instruction.length]
  omega

end Holds

/-- The line with the text of the instruction at an address. -/
def shownLine (m : Machine) (address : UInt16) (i : Instruction) : Written where
  text := " " ++ m.disassemble address
  statement := some (Analysis.statementOf (fun _ => none) (m.decodedAt address i))
  address
  bytes := m.bus.bytesAt address i.length

section
variable (h : m.Holds address i)
include h

theorem spelled_disassemble :
    Analysis.Spelled (m.disassemble address).toList
      (Analysis.statementOf (fun _ => none) (m.decodedAt address i)) := by
  rw [← h.describe_eq]
  exact Analysis.spelled_describe (by simp) h.valid

theorem readsAs_shownLine :
    ReadsAs (m.shownLine address i).text none (m.shownLine address i).statement := by
  refine (spelled_disassemble h).spellsOut.readsAs (n := 1) (by decide) ?_
    (List.forall_mem_nil _) .nil ?_
  · simp [EndsWord]
  · simp [shownLine]

theorem splitLines_shownLine :
    splitLines (m.shownLine address i).text = [(m.shownLine address i).text] := by
  apply splitLines_of_not_mem
  · simpa [shownLine] using (spelled_disassemble h).line
  · simp [shownLine]

theorem sized_shownLine : (m.shownLine address i).Sized := by
  refine ⟨fun e he => ?_, Analysis.sizeOf_statementOf h.valid⟩
  obtain ⟨es, hs⟩ | ⟨mnemonic, operand, hs⟩ :=
    Analysis.statementOf_cases (fun _ => none) (m.decodedAt address i)
  · rw [hs] at he
    cases he
  · rw [hs] at he
    cases he

theorem writes_shownLine :
    Writes address (m.shownLine address i).text [m.shownLine address i] := by
  have hle := h.length_le
  have hlength : (m.shownLine address i).bytes.length = i.length := by
    rw [shownLine, Bus.bytesAt, List.length_map, List.length_range]
  refine writes_line (splitLines_shownLine h) (readsAs_shownLine h) (sized_shownLine h) rfl ?_ ?_
  · rw [hlength]
    exact h.fits
  · omega

/-- The line of an instruction gives its bytes, unless it is a branch out of memory. -/
theorem emits_shownLine (hwraps : ¬(m.decodedAt address i).Wraps) (symbols : Symbols) :
    (m.shownLine address i).Emits symbols := by
  have hencodes : Encodes symbols.value? address
      (Analysis.statementOf (fun _ => none) (m.decodedAt address i))
      (m.bus.bytesAt address i.length) := Analysis.encodes_statementOf (by simp) h.valid hwraps
  obtain ⟨out, hout, hbytes, hentry⟩ := exists_emitStatement hencodes
  exact ⟨out, hout, hbytes, hentry (Analysis.statementOf_ne_finish _ _)⟩

/-- A branch out of memory is refused for the distance that it would take. -/
theorem refuses_shownLine {v : Int} (hv : v ∈ (m.decodedAt address i).destination?)
    (hout : ¬(0 ≤ v ∧ v ≤ 0xFFFF)) (symbols : Symbols) :
    emitStatement symbols address
        (Analysis.statementOf (fun _ => none) (m.decodedAt address i)) =
      .error (.outOfRange (v % 65536 - (address.toNat + i.length)) (-128) 127) := by
  have hrefused := @Analysis.emitStatement_of_wraps (fun _ => none) symbols (by simp) _ h.valid
    v hv hout
  have hlength : (m.decodedAt address i).bytes.length = i.length := by
    rw [decodedAt, Bus.bytesAt, List.length_map, List.length_range]
  rw [hlength] at hrefused
  exact hrefused

/-- The text of a branch out of memory is not assembled. -/
theorem refuses_disassemble {v : Int} (hv : v ∈ (m.decodedAt address i).destination?)
    (hout : ¬(0 ≤ v ∧ v ≤ 0xFFFF)) {o : AssemblyOptions} (ho : o.origin = address) :
    assemble o (" " ++ m.disassemble address) =
      .error ⟨1, .outOfRange (v % 65536 - (address.toNat + i.length)) (-128) 127⟩ := by
  subst ho
  have hs : (m.shownLine o.origin i).statement =
      some (Analysis.statementOf (fun _ => none) (m.decodedAt o.origin i)) := rfl
  have hrefused := assemble_line_of_error (writes_shownLine h) hs (refuses_shownLine h hv hout)
  exact hrefused

end

/-- What an instruction is shown as gives its bytes again when it is assembled as a raw binary where
it stands. Only a branch out of memory is refused. -/
theorem assemble_disassemble (h : m.Holds address i) {o : AssemblyOptions}
    (ho : o.origin = address) (hraw : o.kind = .raw) :
    (¬(m.decodedAt address i).Wraps → ∃ a, assemble o (" " ++ m.disassemble address) = .ok a ∧
      a.program.image = .ok (m.bus.bytesAt address i.length)) ∧
    ∀ v ∈ (m.decodedAt address i).destination?, ¬(0 ≤ v ∧ v ≤ 0xFFFF) →
      assemble o (" " ++ m.disassemble address) =
        .error ⟨1, .outOfRange (v % 65536 - (address.toNat + i.length)) (-128) 127⟩ := by
  refine ⟨fun hwraps => ?_, fun v hv hout => refuses_disassemble h hv hout ho⟩
  subst ho
  obtain ⟨a, ha, hbytes⟩ := exists_assemble_line (writes_shownLine h) (emits_shownLine h hwraps)
  have hkind := (program_of_assemble ha).1.trans hraw
  refine ⟨a, ha, ?_⟩
  unfold Program.image
  rw [hkind, hbytes]
  rfl

/-- The branch that is always taken. -/
def bra : Instruction := ⟨.branch .always, .relative, 0xC0, 1⟩

/-- A branch to itself in the last two bytes of memory, behind which there is no next address. The
keyboard shows it there while 192 keys are waiting. -/
theorem reassembles_last_branch :
    let m : Machine := { bus := { Bus.standard with keys := List.replicate 192 0xFE } }
    let o : AssemblyOptions := { origin := 0xFFFE, kind := .raw }
    m.Holds 0xFFFE bra ∧ m.disassemble 0xFFFE = "BRA $FFFE" ∧
      ∃ a, assemble o (" " ++ m.disassemble 0xFFFE) = .ok a ∧
        a.program.image = .ok [0xC0, 0xFE] := by
  intro m o
  have hshown : Instruction.decode (m.bus.inspect 0xFFFE) = some bra ∧
      m.bus.bytesAt 0xFFFE bra.length = [0xC0, 0xFE] ∧ ¬(m.decodedAt 0xFFFE bra).Wraps ∧
      m.disassemble 0xFFFE = "BRA $FFFE" := by decide +kernel
  obtain ⟨hdecode, hbytes, hwraps, htext⟩ := hshown
  have hholds : m.Holds 0xFFFE bra := ⟨hdecode, nofun, by decide⟩
  have ho : o.origin = 0xFFFE := rfl
  obtain ⟨a, ha, himage⟩ := (assemble_disassemble hholds ho rfl).1 hwraps
  rw [hbytes] at himage
  exact ⟨hholds, htext, a, ha, himage⟩

/-- A branch back from the first address is shown with the last one as its target, and that is too
far away. -/
theorem refuses_branch_below_memory :
    let m : Machine := { bus := ({} : Bus).pokeAll 0 [0xC0, 0xFD] }
    let o : AssemblyOptions := { origin := 0, kind := .raw }
    m.Holds 0 bra ∧ m.disassemble 0 = "BRA $FFFF" ∧
      assemble o (" " ++ m.disassemble 0) = .error ⟨1, .outOfRange 65533 (-128) 127⟩ := by
  intro m o
  have hshown : Instruction.decode (m.bus.inspect 0) = some bra ∧
      (-1 : Int) ∈ (m.decodedAt 0 bra).destination? ∧ m.disassemble 0 = "BRA $FFFF" := by
    decide +kernel
  obtain ⟨hdecode, hdestination, htext⟩ := hshown
  have hholds : m.Holds 0 bra := ⟨hdecode, nofun, by decide⟩
  have hfar : (-1 : Int) % 65536 - ((0 : UInt16).toNat + bra.length) = 65533 := by decide
  have ho : o.origin = 0 := rfl
  have hrefused := refuses_disassemble hholds hdestination (by decide) ho
  rw [hfar] at hrefused
  exact ⟨hholds, htext, hrefused⟩

end Machine

end B33
