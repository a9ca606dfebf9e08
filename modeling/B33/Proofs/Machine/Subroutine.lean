import B33.Proofs.Machine.Frame

/-!
# Subroutines

Whatever a subroutine does, its return finds the stack as the call left it, as long as the stack was
never as short in between as before the call. A step puts one word on the stack, takes one off or
leaves it alone, so what lies below the least depth of a run is never touched.
-/
namespace B33

/-- What lies at the bottom of the stack stays there while the stack is no shorter than it. -/
theorem Mnemonic.Moves.suffix {mnemonic : Mnemonic} {base before after : List UInt16}
    (h : mnemonic.Moves before after) (hbase : base <:+ before)
    (hlength : base.length ≤ after.length) : base <:+ after := by
  cases mnemonic with
  | call | push r =>
      obtain ⟨value, rfl⟩ := h
      exact hbase.trans (List.suffix_cons value before)
  | ret | pop r =>
      obtain ⟨value, rfl⟩ := h
      rcases List.suffix_cons_iff.mp hbase with rfl | hbase
      · exact absurd hlength (Nat.not_succ_le_self _)
      · exact hbase
  | _ =>
      cases h
      exact hbase

/-- The depth of the stack changes by one at most. -/
theorem Mnemonic.Moves.length_le {mnemonic : Mnemonic} {before after : List UInt16}
    (h : mnemonic.Moves before after) :
    before.length ≤ after.length + 1 ∧ after.length ≤ before.length + 1 := by
  cases mnemonic with
  | call | push r | ret | pop r =>
      obtain ⟨value, rfl⟩ := h
      rw [List.length_cons]
      omega
  | _ =>
      cases h
      omega

namespace Machine

variable {m read after : Machine} {p : Prepared} {s : Step}

@[simp] theorem pc_set (file : RegisterFile) (r : Register) (value : UInt16) :
    (file.set r value).pc = file.pc := by
  cases r <;> rfl

theorem pc_resolve {i : Instruction} {operand : UInt16} {file file' : RegisterFile}
    {argument : Argument} (h : resolve i operand file = some (argument, file')) :
    file'.pc = file.pc := by
  unfold resolve at h
  cases hmode : i.mode with
  | indexed =>
      simp only [hmode] at h
      split at h
      · next form _ =>
        cases h
        unfold IndexForm.resolve
        cases form.step <;> simp
      · cases h
  | _ =>
      simp only [hmode, Option.some.injEq, Prod.mk.injEq] at h
      rw [h.2]

/-- Once an instruction is read the program counter stands behind it. -/
theorem pc_of_prepare (h : m.prepare = (.ok p, read)) :
    read.registers.pc = m.registers.pc + UInt16.ofNat p.instruction.length := by
  cases hi : Instruction.decode m.fetch.1 with
  | none =>
      unfold prepare at h
      dsimp only at h
      rw [hi] at h
      cases h
  | some i =>
      obtain ⟨htable, -⟩ := Instruction.decode_eq_some_iff.mp hi
      rw [prepare_of_decode hi] at h
      split at h
      · cases h
      · next argument registers hresolve =>
        cases h
        rw [pc_resolve hresolve, registers_takeOperand m htable]

theorem stack_of_prepare (h : m.prepare = (.ok p, read)) : read.stack = m.stack := by
  have hread := m.prepare_isReadFrom
  rw [h] at hread
  exact hread.1

theorem stack_step (h : m.step = (.ok s, after)) :
    s.instruction.mnemonic.Moves m.stack after.stack := by
  obtain ⟨p, read, hprepare, hfault, rfl, rfl⟩ := exists_of_step_eq_ok h
  rw [← stack_of_prepare hprepare]
  exact stack_perform hfault

/-- A call leaves the address behind it on the stack. -/
theorem step_call (h : m.step = (.ok s, after)) (hcall : s.instruction.mnemonic = .call) :
    after.stack = (m.registers.pc + UInt16.ofNat s.instruction.length) :: m.stack := by
  obtain ⟨p, read, hprepare, -, rfl, rfl⟩ := exists_of_step_eq_ok h
  change p.instruction.mnemonic = .call at hcall
  simp only [perform, hcall, jump, pc_of_prepare hprepare, stack_of_prepare hprepare]
  rfl

/-- A return goes to the address on top of the stack. -/
theorem step_ret (h : m.step = (.ok s, after)) (hret : s.instruction.mnemonic = .ret) :
    m.stack = after.registers.pc :: after.stack := by
  obtain ⟨p, read, hprepare, hfault, rfl, rfl⟩ := exists_of_step_eq_ok h
  change p.instruction.mnemonic = .ret at hret
  rw [← stack_of_prepare hprepare]
  cases hstack : read.stack with
  | nil => simp [stackFault?, hret, hstack] at hfault
  | cons address stack => simp only [perform, hret, hstack, jump]

theorem stack_step_error {f : Fault} (h : m.step = (.error f, after)) :
    after.stack = m.stack := by
  have hread := m.prepare_isReadFrom
  unfold step at h
  split at h
  · next hprepare =>
    cases h
    rw [hprepare] at hread
    exact hread.1
  · next p read hprepare =>
    split at h
    · cases h
      exact stack_of_prepare hprepare
    · cases h

/-- Nothing is put on a full stack. -/
theorem length_stack_step (h : m.stack.length ≤ stackLimit) :
    m.step.2.stack.length ≤ stackLimit := by
  generalize hstep : m.step = result
  obtain ⟨f | s, after⟩ := result
  · rw [stack_step_error hstep]
    exact h
  · obtain ⟨p, read, hprepare, hfault, rfl, rfl⟩ := exists_of_step_eq_ok hstep
    have hmoves := stack_perform hfault
    rw [← stack_of_prepare hprepare] at h
    unfold stackFault? at hfault
    cases hm : p.instruction.mnemonic with
    | call | push r =>
        rw [hm] at hmoves
        obtain ⟨value, hpushed⟩ := hmoves
        have hroom : ¬stackLimit ≤ read.stack.length := by simpa [hm] using hfault
        rw [hpushed, List.length_cons]
        omega
    | ret | pop r =>
        rw [hm] at hmoves
        obtain ⟨value, hpopped⟩ := hmoves
        rw [hpopped, List.length_cons] at h
        exact Nat.le_of_succ_le h
    | _ =>
        rw [hm] at hmoves
        rw [show (read.perform p).stack = read.stack from hmoves]
        exact h

/-- Whatever becomes of the steps of a machine, its stack never overflows. -/
theorem length_stack_steps (h : m.stack.length ≤ stackLimit) (n : Nat) :
    ((fun m : Machine => m.step.2)^[n] m).stack.length ≤ stackLimit := by
  induction n generalizing m with
  | zero => exact h
  | succ n ih =>
      rw [Function.iterate_succ_apply]
      exact ih (length_stack_step h)

/-- A run of instructions that are executed without the stack ever having the given depth. -/
inductive Avoids (depth : Nat) : Machine → Machine → Prop
  | refl {m : Machine} : m.stack.length ≠ depth → Avoids depth m m
  | step {m n l : Machine} {s : Step} : m.stack.length ≠ depth → m.step = (.ok s, n) →
      Avoids depth n l → Avoids depth m l

theorem Avoids.length_ne {depth : Nat} {m n : Machine} (h : Avoids depth m n) :
    m.stack.length ≠ depth := by
  cases h with
  | refl h => exact h
  | step h _ _ => exact h

/-- A run that starts above a depth, and is never at it, leaves all alone that lies below. -/
theorem Avoids.suffix {depth : Nat} {m n : Machine} (h : Avoids depth m n) {base : List UInt16}
    (hdepth : base.length = depth + 1) (hbase : base <:+ m.stack) : base <:+ n.stack := by
  induction h with
  | refl _ => exact hbase
  | step _ hstep hrest ih =>
      have hmoves := stack_step hstep
      have hlength := hmoves.length_le.1
      have hne := hrest.length_ne
      have hle := hbase.length_le
      exact ih (hmoves.suffix hbase (by omega))

/-- The stack never overflows, and a return that brings it back to the depth before a call goes to
the address behind the call and leaves the stack that was there. -/
theorem return_of_call (m : Machine) :
    (m.stack.length ≤ stackLimit → ∀ n,
        ((fun m : Machine => m.step.2)^[n] m).stack.length ≤ stackLimit) ∧
      ∀ (call ret : Step) (entered inner back : Machine), m.step = (.ok call, entered) →
        call.instruction.mnemonic = .call → Avoids m.stack.length entered inner →
        inner.step = (.ok ret, back) → ret.instruction.mnemonic = .ret →
        back.stack.length = m.stack.length →
        back.registers.pc = m.registers.pc + UInt16.ofNat call.instruction.length ∧
          back.stack = m.stack := by
  refine ⟨fun h n => length_stack_steps h n, ?_⟩
  intro call ret entered inner back hcall hiscall hrun hret hisret hback
  have hentered := step_call hcall hiscall
  have hinner := step_ret hret hisret
  have hbase : (m.registers.pc + UInt16.ofNat call.instruction.length) :: m.stack <:+
      entered.stack := by
    simp only [hentered, List.suffix_rfl]
  have hsuffix := hrun.suffix List.length_cons hbase
  rw [hinner] at hsuffix
  have hsame := hsuffix.eq_of_length (by rw [List.length_cons, List.length_cons, hback])
  obtain ⟨hpc, hstack⟩ := List.cons.inj hsame
  exact ⟨hpc.symm, hstack.symm⟩

theorem exists_step {i : Instruction}
    (h : m.step.1.toOption.map (·.instruction) = some i) :
    ∃ s, m.step = (.ok s, m.step.2) ∧ s.instruction = i := by
  obtain ⟨s, hs, hi⟩ := Option.map_eq_some_iff.mp h
  refine ⟨s, ?_, hi⟩
  rw [← toOption_eq_some_iff.mp hs]

/-- A call of a subroutine that pushes `A` and pops it into `B`, with a word on the stack before. -/
theorem return_of_call_pushing :
    let m : Machine :=
      { stack := [7], bus := ({} : Bus).pokeAll 0 [0x81, 0x04, 0x00, 0x01, 0xB0, 0xB6, 0x03] }
    m.stack.length ≤ stackLimit ∧
      ∃ call ret entered inner back, m.step = (.ok call, entered) ∧
        call.instruction.mnemonic = .call ∧ Avoids m.stack.length entered inner ∧
        inner.step = (.ok ret, back) ∧ ret.instruction.mnemonic = .ret ∧
        back.registers.pc = 3 ∧ back.stack = [7] := by
  intro m
  have hlimit : m.stack.length ≤ stackLimit := Nat.le_of_ble_eq_true rfl
  have hrun : m.step.1.toOption.map (·.instruction) = some ⟨.call, .extended, 0x81, 2⟩ ∧
      m.step.2.stack.length = 2 ∧
      m.step.2.step.1.toOption.map (·.instruction) = some ⟨.push .a, .inherent, 0xB0, 0⟩ ∧
      m.step.2.step.2.stack.length = 3 ∧
      m.step.2.step.2.step.1.toOption.map (·.instruction) = some ⟨.pop .b, .inherent, 0xB6, 0⟩ ∧
      m.step.2.step.2.step.2.stack.length = 2 ∧
      m.step.2.step.2.step.2.step.1.toOption.map (·.instruction) =
        some ⟨.ret, .inherent, 0x03, 0⟩ ∧
      m.step.2.step.2.step.2.step.2.stack.length = 1 := by decide +kernel
  obtain ⟨hcall, h₁, hpush, h₂, hpop, h₃, hret, h₄⟩ := hrun
  obtain ⟨call, hentered, hcall⟩ := exists_step hcall
  obtain ⟨push, hpushed, -⟩ := exists_step hpush
  obtain ⟨pop, hpopped, -⟩ := exists_step hpop
  obtain ⟨ret, hreturned, hret⟩ := exists_step hret
  have hbody : Avoids m.stack.length m.step.2 m.step.2.step.2.step.2 := by
    have hdepth : m.stack.length = 1 := rfl
    rw [hdepth]
    exact .step (by rw [h₁]; decide) hpushed
      (.step (by rw [h₂]; decide) hpopped (.refl (by rw [h₃]; decide)))
  obtain ⟨hpc, hstack⟩ := (return_of_call m).2 call ret _ _ _ hentered (by rw [hcall]) hbody
    hreturned (by rw [hret]) h₄
  rw [hcall] at hpc
  exact ⟨hlimit, call, ret, _, _, _, hentered, by rw [hcall], hbody, hreturned, by rw [hret], hpc,
    hstack⟩

end Machine

end B33
