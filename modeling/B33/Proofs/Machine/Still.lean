import B33.Machine.Step

/-!
# Machines that stand still

A jump or branch that comes back to itself can leave the machine exactly as it was. Nothing will ever
come of executing it again. It does not if it moves an index register, or if it stands where the
keyboard is, so that reading it takes keys.
-/
namespace B33

/-- Reading changes nothing on the bus but the keys. -/
theorem Bus.peek_snd_eq (b : Bus) (address : UInt16) :
    (b.peek address).2 = { b with keys := (b.peek address).2.keys } := by
  unfold Bus.peek
  split
  · dsimp only
    split <;> rfl
  · rfl

namespace Machine

/-- Whether a machine is another one that has at most moved its registers and taken keys. -/
def IsReadFrom (n m : Machine) : Prop :=
  n.stack = m.stack ∧ n.bus = { m.bus with keys := n.bus.keys }

theorem IsReadFrom.refl (m : Machine) : m.IsReadFrom m := ⟨rfl, rfl⟩

theorem IsReadFrom.trans {l m n : Machine} (h : l.IsReadFrom m) (g : m.IsReadFrom n) :
    l.IsReadFrom n := by
  refine ⟨h.1.trans g.1, ?_⟩
  rw [h.2, g.2]

theorem IsReadFrom.eq_of_registers_of_keys {n m : Machine} (h : n.IsReadFrom m)
    (hr : n.registers = m.registers) (hk : n.bus.keys = m.bus.keys) : n = m := by
  obtain ⟨registers, stack, bus⟩ := n
  obtain ⟨hs, hb⟩ := h
  dsimp only at hr hs hb hk
  rw [hk] at hb
  subst hr hs hb
  rfl

theorem fetch_isReadFrom (m : Machine) : m.fetch.2.IsReadFrom m :=
  ⟨rfl, Bus.peek_snd_eq m.bus m.registers.pc⟩

theorem fetchOperand_isReadFrom (m : Machine) (length : Nat) :
    (m.fetchOperand length).2.IsReadFrom m := by
  unfold fetchOperand
  split
  · exact .refl m
  · exact m.fetch_isReadFrom
  · exact (fetch_isReadFrom m.fetch.2).trans m.fetch_isReadFrom

theorem prepare_isReadFrom (m : Machine) : m.prepare.2.IsReadFrom m := by
  unfold prepare
  dsimp only
  split
  · exact m.fetch_isReadFrom
  · rename_i i _
    have h := (fetchOperand_isReadFrom m.fetch.2 i.operandLength).trans m.fetch_isReadFrom
    split
    · exact h
    · exact ⟨h.1, h.2⟩

/-- A jump or branch changes nothing but the registers, and does not fault. -/
theorem perform_of_isJump {m : Machine} {p : Prepared}
    (h : p.instruction.mnemonic = .jmp ∨ p.instruction.mnemonic.isBranch = true) :
    (m.perform p).stack = m.stack ∧ (m.perform p).bus = m.bus ∧ m.stackFault? p = none := by
  unfold perform stackFault?
  rcases h with h | h
  · simp [h, jump]
  · cases hq : p.instruction.mnemonic <;> simp [hq, Mnemonic.isBranch] at h ⊢
    split <;> simp [jump]

/-- A jump or branch stores nothing and does not halt. -/
theorem outcome_of_isJump {p : Prepared}
    (h : p.instruction.mnemonic = .jmp ∨ p.instruction.mnemonic.isBranch = true) :
    p.outcome.store = none ∧ p.outcome.halted = false := by
  unfold Prepared.outcome
  rcases h with h | h
  · simp [h]
  · cases hq : p.instruction.mnemonic <;> simp [hq, Mnemonic.isBranch] at h ⊢

/-- A machine that stands still is the same after its next instruction, which stores nothing and does
not halt. -/
theorem step_eq_of_isStill {m : Machine} (h : m.isStill) :
    ∃ s : Step, m.step = (.ok s, m) ∧ s.store = none ∧ s.halted = false := by
  have hread := m.prepare_isReadFrom
  unfold isStill at h
  unfold step
  generalize m.prepare = read at h hread ⊢
  obtain ⟨_ | p, after⟩ := read
  · simp at h
  · simp only [Bool.and_eq_true, Bool.or_eq_true, beq_iff_eq] at h
    obtain ⟨⟨hm, hr⟩, hk⟩ := h
    obtain ⟨hs, hb, hf⟩ := perform_of_isJump (m := after) hm
    have hsame : after.perform p = m :=
      IsReadFrom.eq_of_registers_of_keys ⟨hs.trans hread.1, by rw [hb]; exact hread.2⟩ hr
        (by rw [hb]; exact hk)
    refine ⟨p.outcome, ?_, outcome_of_isJump hm⟩
    simp only [hf, hsame]

end Machine

end B33
