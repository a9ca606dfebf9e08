import B33.Machine.Disassembly
import B33.Proofs.Machine.Standard
import B33.Proofs.Text.Numeral

/-!
# What a disassembled text says

The text at the program counter says what comes of the next step. It shows an unknown opcode or an
illegal index byte exactly if the machine faults with it, and otherwise the instruction that the
machine reads, with the operand that it reads for it. Neither devices nor the end of memory make a
difference.
-/
namespace B33

namespace Mnemonic

theorem space_notMem_name (m : Mnemonic) : ' ' ∉ m.name.toList := by
  have every : ∀ m ∈ all, ' ' ∉ m.name.toList := by decide +kernel
  exact every m m.mem_all

theorem exists_toList_name (m : Mnemonic) : ∃ c cs, m.name.toList = c :: cs ∧ c ≠ '?' := by
  have every : ∀ m ∈ all, m.name.toList.head?.any (· ≠ '?') = true := by decide +kernel
  have hhead := every m m.mem_all
  cases hname : m.name.toList with
  | nil => simp [hname] at hhead
  | cons c cs => exact ⟨c, cs, rfl, by simpa [hname] using hhead⟩

/-- No mnemonic begins as an unknown opcode is shown. -/
theorem name_append_ne (m : Mnemonic) (s t : String) : m.name ++ s ≠ "??? $" ++ t := by
  obtain ⟨c, cs, hname, hc⟩ := m.exists_toList_name
  intro h
  have hchars := congrArg String.toList h
  simp only [String.toList_append, hname, String.reduceToList, List.cons_append,
    List.cons.injEq] at hchars
  exact hc hchars.1

theorem dropWhile_name_append (m : Mnemonic) (s : String) :
    (m.name ++ " " ++ s).toList.dropWhile (· != ' ') = ' ' :: s.toList := by
  have hname : ∀ c ∈ m.name.toList, (c != ' ') = true := by
    intro c hc
    rw [bne_iff_ne]
    rintro rfl
    exact m.space_notMem_name hc
  simp only [String.toList_append, String.reduceToList, List.append_assoc, List.cons_append,
    List.nil_append]
  rw [List.dropWhile_append_of_pos hname]
  rfl

/-- The operand is what stands behind the first blank. -/
theorem eq_of_name_append {m n : Mnemonic} {s t : String}
    (h : m.name ++ " " ++ s = n.name ++ " " ++ t) : s = t := by
  have hchars := congrArg (fun text : String => text.toList.dropWhile (· != ' ')) h
  simp only [dropWhile_name_append, List.cons.injEq, true_and] at hchars
  exact String.toList_inj.mp hchars

end Mnemonic

namespace Machine
open Bus

/-- What the text of an instruction says, next to what was read for the instruction. -/
inductive Shows (m : Machine) (p : Prepared) (after : Machine) : String → Prop
  | inherent (hmode : p.instruction.mode = .inherent) (hargument : p.argument = .none) :
      Shows m p after p.instruction.mnemonic.name
  | byte (v : UInt8) (hmode : p.instruction.mode = .immediate)
      (hlength : p.instruction.operandLength = 1) (hargument : p.argument = .value v.toUInt16) :
      Shows m p after (p.instruction.mnemonic.name ++ " " ++ ("#$" ++ Numeral.byte v))
  | word (v : UInt16) (hmode : p.instruction.mode = .immediate)
      (hlength : p.instruction.operandLength = 2) (hargument : p.argument = .value v) :
      Shows m p after (p.instruction.mnemonic.name ++ " " ++ ("#$" ++ Numeral.word v))
  | extended (address : UInt16) (hmode : p.instruction.mode = .extended)
      (hargument : p.argument = .address address) :
      Shows m p after (p.instruction.mnemonic.name ++ " " ++ ("$" ++ Numeral.word address))
  | relative (c : Condition) (target : UInt16) (hmnemonic : p.instruction.mnemonic = .branch c)
      (hpc : (after.perform p).registers.pc =
        if c.holds after.registers then target else after.registers.pc) :
      Shows m p after (p.instruction.mnemonic.name ++ " " ++ ("$" ++ Numeral.word target))
  | indexed (form : IndexForm) (hmode : p.instruction.mode = .indexed)
      (hbyte : IndexForm.decode m.fetch.2.fetch.1 = .ok form)
      (hargument : p.argument = .address (form.resolve m.fetch.2.fetch.2.registers).1)
      (hregisters : after.registers = (form.resolve m.fetch.2.fetch.2.registers).2) :
      Shows m p after (p.instruction.mnemonic.name ++ " " ++ form.text)

/-- The ways in which the bytes at the program counter are read, with the text for each. -/
inductive Reading (m : Machine) : Prop
  | unknown (opcode : UInt8)
      (hstep : m.step.1 = .error (.unknownOpcode opcode m.registers.pc))
      (htext : m.disassemble m.registers.pc = "??? $" ++ Numeral.byte opcode) : Reading m
  | illegal (mnemonic : Mnemonic) (byte : UInt8)
      (hstep : m.step.1 = .error (.illegalIndex byte m.registers.pc))
      (htext : m.disassemble m.registers.pc =
        mnemonic.name ++ " " ++ (IndexError.illegalByte byte).message) : Reading m
  | legal (p : Prepared) (after : Machine) (hprepare : m.prepare = (.ok p, after))
      (hshows : m.Shows p after (m.disassemble m.registers.pc)) : Reading m

variable {m : Machine}

theorem disassemble_of_decode {address : UInt16} {i : Instruction}
    (hi : Instruction.decode (m.bus.inspect address) = some i) :
    m.disassemble address =
      if i.mode = .inherent then i.mnemonic.name
      else i.mnemonic.name ++ " " ++ operandText m.bus address i := by
  unfold disassemble
  dsimp only
  split
  · next hnone =>
    rw [hnone] at hi
    cases hi
  · next j hj =>
    rw [hj] at hi
    cases hi
    rfl

/-- An instruction that is read is shown as it is read. -/
theorem shows_of_resolve (h : m.bus.IsStandard) {i : Instruction} {argument : Argument}
    {registers : RegisterFile} (hi : i ∈ Instruction.table)
    (hdecode : Instruction.decode (m.bus.inspect m.registers.pc) = some i)
    (hresolve : resolve i (m.operand i) (m.advance i.length).registers = some (argument, registers)) :
    m.Shows { address := m.registers.pc, instruction := i, argument }
      { m.advance i.length with registers } (m.disassemble m.registers.pc) := by
  have hlength := Instruction.operandLength_eq hi
  rw [disassemble_of_decode hdecode]
  unfold resolve at hresolve
  cases hmode : i.mode with
  | inherent =>
      simp only [hmode, Option.some.injEq, Prod.mk.injEq] at hresolve
      rw [if_pos rfl]
      exact .inherent hmode hresolve.1.symm
  | immediate =>
      simp only [hmode, Option.some.injEq, Prod.mk.injEq] at hresolve
      rw [if_neg (by decide), operandText, hmode]
      rw [hmode, Instruction.operandLengthOf] at hlength
      dsimp only
      split
      · next hone =>
        rw [operand_byte hone] at hresolve
        exact .byte _ hmode hone hresolve.1.symm
      · next hne =>
        have htwo : i.operandLength = 2 :=
          ((Instruction.immediateLength_eq i.mnemonic).resolve_left (hlength ▸ hne)) ▸ hlength
        rw [operand_word htwo] at hresolve
        exact .word _ hmode htwo hresolve.1.symm
  | extended =>
      rw [hmode, Instruction.operandLengthOf] at hlength
      simp only [hmode, Option.some.injEq, Prod.mk.injEq, operand_word hlength] at hresolve
      rw [if_neg (by decide), operandText, hmode]
      exact .extended _ hmode hresolve.1.symm
  | relative =>
      obtain ⟨c, hc⟩ : ∃ c, i.mnemonic = .branch c := by
        have hbranch := (Instruction.isBranch_iff hi).mpr hmode
        cases hm : i.mnemonic <;> simp [hm, Mnemonic.isBranch] at hbranch ⊢
      rw [hmode, Instruction.operandLengthOf] at hlength
      simp only [hmode, Option.some.injEq, Prod.mk.injEq, operand_byte hlength, lowByte_toUInt16]
        at hresolve
      rw [if_neg (by decide), operandText, hmode]
      obtain ⟨rfl, rfl⟩ := hresolve
      have hnext : (m.advance i.length).registers.pc = m.registers.pc + 2 := by
        rw [Instruction.length, hlength]
        rfl
      refine .relative c _ hc ?_
      simp only [perform, hc]
      split
      · exact congrArg (Instruction.branchTarget · _) hnext
      · rfl
  | indexed =>
      rw [hmode, Instruction.operandLengthOf] at hlength
      have hbytes := fetch_fetch_standard h
      simp only [hmode, operand_byte hlength, lowByte_toUInt16, Instruction.length, hlength]
        at hresolve
      rw [if_neg (by decide), operandText, hmode]
      cases hform : IndexForm.decode (m.bus.inspect (m.registers.pc + 1)) with
      | error e =>
          rw [hform] at hresolve
          cases hresolve
      | ok form =>
          rw [hform] at hresolve
          cases hresolve
          refine .indexed form hmode ?_ ?_ ?_
          · rw [hbytes]; exact hform
          · rw [hbytes]
          · rw [hbytes]

/-- An operand that is refused is an index byte outside the tables. -/
theorem illegal_of_resolve {i : Instruction} {operand : UInt16} {r : RegisterFile}
    (h : resolve i operand r = none) :
    i.mode = .indexed ∧
      IndexForm.decode (lowByte operand) = .error (.illegalByte (lowByte operand)) := by
  unfold resolve at h
  split at h
  · cases h
  · cases h
  · cases h
  · cases h
  · next hmode =>
    refine ⟨hmode, ?_⟩
    split at h
    · cases h
    · next e he =>
      rw [he]
      unfold IndexForm.decode at he
      split at he
      · cases he
      · exact he.symm

theorem reading (h : m.bus.IsStandard) : m.Reading := by
  have hprepare := prepare_standard h
  cases hi : Instruction.decode (m.bus.inspect m.registers.pc) with
  | none =>
      rw [hi] at hprepare
      refine .unknown (m.bus.inspect m.registers.pc) ?_ ?_
      · unfold step
        rw [hprepare]
      · unfold disassemble
        simp only [hi]
  | some i =>
      obtain ⟨htable, -⟩ := Instruction.decode_eq_some_iff.mp hi
      rw [hi] at hprepare
      dsimp only at hprepare
      cases hresolve : resolve i (m.operand i) (m.advance i.length).registers with
      | none =>
          obtain ⟨hmode, hillegal⟩ := illegal_of_resolve hresolve
          have hlength := Instruction.operandLength_eq htable
          rw [hmode, Instruction.operandLengthOf] at hlength
          rw [hresolve] at hprepare
          rw [operand_byte hlength, lowByte_toUInt16] at hprepare hillegal
          refine .illegal i.mnemonic (m.bus.inspect (m.registers.pc + 1)) ?_ ?_
          · unfold step
            rw [hprepare]
          · rw [disassemble_of_decode hi, hmode, if_neg (by decide), operandText, hmode]
            dsimp only
            rw [hillegal]
      | some read =>
          rw [hresolve] at hprepare
          exact .legal _ _ hprepare (shows_of_resolve h htable hi hresolve)

theorem head?_illegalByte (byte : UInt8) :
    (IndexError.illegalByte byte).message.toList.head? = some 'I' := by
  have htext : (IndexError.illegalByte byte).message =
      "Illegal index byte: $" ++ Numeral.byte byte := rfl
  rw [htext, String.toList_append]
  simp only [String.reduceToList, List.cons_append, List.head?_cons]

/-- A text that shows an instruction has its mnemonic first, and behind a blank no text that begins
as the message for an illegal index byte does. -/
theorem Shows.text {p : Prepared} {after : Machine} {text : String} (h : m.Shows p after text) :
    text = p.instruction.mnemonic.name ∨ ∃ operand, operand.toList.head? ≠ some 'I' ∧
      text = p.instruction.mnemonic.name ++ " " ++ operand := by
  cases h with
  | inherent => exact .inl rfl
  | byte v => exact .inr ⟨_, by simp, rfl⟩
  | word v => exact .inr ⟨_, by simp, rfl⟩
  | extended address => exact .inr ⟨_, by simp, rfl⟩
  | relative c target => exact .inr ⟨_, by simp, rfl⟩
  | indexed form =>
      refine .inr ⟨_, ?_, rfl⟩
      rw [IndexForm.text]
      cases form.offset with
      | none => simp
      | some r => cases r <;> simp [Register.name]

theorem Shows.ne_unknown {p : Prepared} {after : Machine} {text : String}
    (h : m.Shows p after text) (opcode : UInt8) : text ≠ "??? $" ++ Numeral.byte opcode := by
  rcases h.text with rfl | ⟨operand, -, rfl⟩
  · have hne := p.instruction.mnemonic.name_append_ne "" (Numeral.byte opcode)
    rwa [String.append_empty] at hne
  · rw [String.append_assoc]
    exact Mnemonic.name_append_ne _ _ _

theorem Shows.ne_illegal {p : Prepared} {after : Machine} {text : String}
    (h : m.Shows p after text) (mnemonic : Mnemonic) (byte : UInt8) :
    text ≠ mnemonic.name ++ " " ++ (IndexError.illegalByte byte).message := by
  rcases h.text with rfl | ⟨operand, hoperand, rfl⟩
  · intro h
    apply p.instruction.mnemonic.space_notMem_name
    rw [h]
    simp
  · intro h
    apply hoperand
    rw [Mnemonic.eq_of_name_append h, head?_illegalByte]

theorem eq_of_stackFault? {p : Prepared} {fault : Fault} (h : m.stackFault? p = some fault) :
    fault = .stackOverflow p.address ∨ fault = .stackUnderflow p.address := by
  unfold stackFault? at h
  cases hm : p.instruction.mnemonic with
  | call | push r =>
      rw [hm] at h
      exact .inl (Option.some.inj (Option.ite_none_right_eq_some.mp h).2).symm
  | ret | pop r =>
      rw [hm] at h
      exact .inr (Option.some.inj (Option.ite_none_right_eq_some.mp h).2).symm
  | _ =>
      rw [hm] at h
      cases h

/-- A machine that has read an instruction can only find fault with its stack. -/
theorem step_of_legal {p : Prepared} {after : Machine} (h : m.prepare = (.ok p, after)) :
    (∀ opcode address, m.step.1 ≠ .error (.unknownOpcode opcode address)) ∧
      ∀ byte address, m.step.1 ≠ .error (.illegalIndex byte address) := by
  rw [step_of_prepare h]
  cases hfault : after.stackFault? p with
  | none => exact ⟨nofun, nofun⟩
  | some fault =>
      rcases eq_of_stackFault? hfault with rfl | rfl
      · exact ⟨nofun, nofun⟩
      · exact ⟨nofun, nofun⟩

/-- The text at the program counter is that of what the machine executes. -/
theorem disassemble_eq_step (h : m.bus.IsStandard) :
    (∀ opcode, m.disassemble m.registers.pc = "??? $" ++ Numeral.byte opcode ↔
        m.step.1 = .error (.unknownOpcode opcode m.registers.pc)) ∧
      (∀ byte, (∃ mnemonic : Mnemonic, m.disassemble m.registers.pc =
          mnemonic.name ++ " " ++ (IndexError.illegalByte byte).message) ↔
        m.step.1 = .error (.illegalIndex byte m.registers.pc)) ∧
      ((∀ opcode, m.step.1 ≠ .error (.unknownOpcode opcode m.registers.pc)) →
        (∀ byte, m.step.1 ≠ .error (.illegalIndex byte m.registers.pc)) →
        ∃ p after, m.prepare = (.ok p, after) ∧
          (m.step = match after.stackFault? p with
            | some fault => (.error fault, after)
            | none => (.ok p.outcome, after.perform p)) ∧
          m.Shows p after (m.disassemble m.registers.pc)) := by
  cases reading h with
  | unknown opcode hstep htext =>
      refine ⟨fun other => ?_, fun byte => ?_, fun hunknown => ?_⟩
      · rw [htext, hstep]
        constructor
        · intro heq
          rw [Numeral.byte_inj.mp ((String.append_right_inj _).mp heq)]
        · intro heq
          cases heq
          rfl
      · rw [htext, hstep]
        constructor
        · rintro ⟨mnemonic, heq⟩
          rw [String.append_assoc] at heq
          exact absurd heq.symm (mnemonic.name_append_ne _ _)
        · nofun
      · exact absurd hstep (hunknown opcode)
  | illegal mnemonic byte hstep htext =>
      refine ⟨fun opcode => ?_, fun other => ?_, fun _ hillegal => ?_⟩
      · rw [htext, hstep, String.append_assoc]
        constructor
        · intro heq
          exact absurd heq (mnemonic.name_append_ne _ _)
        · nofun
      · rw [htext, hstep]
        constructor
        · rintro ⟨shown, heq⟩
          have hmessage := Mnemonic.eq_of_name_append heq
          rw [Numeral.byte_inj.mp ((String.append_right_inj _).mp hmessage)]
        · intro heq
          cases heq
          exact ⟨mnemonic, rfl⟩
      · exact absurd hstep (hillegal byte)
  | legal p after hprepare hshows =>
      obtain ⟨hunknown, hillegal⟩ := step_of_legal hprepare
      refine ⟨fun opcode => ?_, fun byte => ?_, fun _ _ => ?_⟩
      · exact iff_of_false (hshows.ne_unknown opcode) (hunknown opcode _)
      · refine iff_of_false ?_ (hillegal byte _)
        rintro ⟨mnemonic, heq⟩
        exact hshows.ne_illegal mnemonic byte heq
      · exact ⟨p, after, hprepare, step_of_prepare hprepare, hshows⟩

/-- A branch that is read from the keyboard: 192 keys are waiting, and the first of them is the
displacement. -/
theorem shows_branch_of_keys :
    let m : Machine := { registers := { pc := 0xFFFE }
                         bus := { Bus.standard with keys := List.replicate 192 5 } }
    m.bus.IsStandard ∧ m.disassemble 0xFFFE = "BRA $0005" ∧ m.step.2.registers.pc = 5 ∧
      ∃ p after, m.prepare = (.ok p, after) ∧ m.Shows p after (m.disassemble 0xFFFE) := by
  intro m
  have h : m.bus.IsStandard := isStandard_standard.of_devices rfl
  have hrun : m.step.1.toOption.isSome = true ∧ m.step.2.registers.pc = 5 ∧
      m.disassemble 0xFFFE = "BRA $0005" := by decide +kernel
  obtain ⟨hok, hpc, htext⟩ := hrun
  refine ⟨h, htext, hpc, ?_⟩
  obtain ⟨p, after, hprepare, -, hshows⟩ := (disassemble_eq_step h).2.2
    (fun opcode heq => by rw [heq] at hok; cases hok)
    (fun byte heq => by rw [heq] at hok; cases hok)
  exact ⟨p, after, hprepare, hshows⟩

end Machine

end B33
