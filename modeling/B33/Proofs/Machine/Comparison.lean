import B33.Proofs.Alu
import B33.Proofs.Machine.Frame

/-!
# Comparing and branching

A branch behind a comparison is taken by how the register and the value compare as integers, without
a sign or with one. The value is the one that the comparison's operand is, or that lies at its
address.
-/
namespace B33

/-- What a condition says of a register and of the value that it was compared with. -/
def Condition.Relates (w : Width) (x y : UInt16) : Condition → Prop
  | always => True
  | equal => x = y
  | notEqual => x ≠ y
  | carrySet => x.toNat < y.toNat
  | carryClear => y.toNat ≤ x.toNat
  | negative => Int.bmod (w.signed x - w.signed y) w.modulus < 0
  | positive => 0 ≤ Int.bmod (w.signed x - w.signed y) w.modulus
  | overflowSet => w.overflows (w.signed x - w.signed y)
  | overflowClear => ¬w.overflows (w.signed x - w.signed y)
  | greater => w.signed y < w.signed x
  | less => w.signed x < w.signed y
  | greaterOrEqual => w.signed y ≤ w.signed x
  | lessOrEqual => w.signed x ≤ w.signed y

theorem Width.cut_of_fits {w : Width} {x : UInt16} (h : x.toNat < w.modulus) :
    w.cut x = x.toNat := Nat.mod_eq_of_lt h

section
variable {w : Width} {x y : UInt16} (hx : x.toNat < w.modulus) (hy : y.toNat < w.modulus)
include hx hy

theorem signed_inj : w.signed x = w.signed y ↔ x = y := by
  have hsx := w.toSigned_cases x.toNat
  have hsy := w.toSigned_cases y.toNat
  rw [w.signed_eq, w.signed_eq, Width.cut_of_fits hx, Width.cut_of_fits hy, ← UInt16.toNat_inj]
  rw [w.modulus_eq] at hx hy
  omega

/-- The condition codes of a comparison. -/
theorem flags_compared (file : RegisterFile) :
    let compared : RegisterFile := { file with cc := (Alu.sub w x y).flags.apply file.cc }
    compared.flag .carry = decide (x.toNat < y.toNat) ∧
      compared.flag .zero = decide (x = y) ∧
      compared.flag .negative = decide (Int.bmod (w.signed x - w.signed y) w.modulus < 0) ∧
      compared.flag .overflow = w.overflows (w.signed x - w.signed y) ∧
      (compared.flag .negative != compared.flag .overflow) =
        decide (w.signed x < w.signed y) := by
  intro compared
  have hflag (f : Flag) : compared.flag f = ((Alu.sub w x y).flags.get f).getD (file.flag f) :=
    FlagChange.flag_apply _ file f
  have hsub := Alu.gives_sub w x y
  have hvalue := Alu.toNat_sub_value w x y
  rw [hsub.flags] at hflag
  rw [Width.cut_of_fits hx, Width.cut_of_fits hy] at hflag hvalue hsub
  have hfits : (Alu.sub w x y).value.toNat < w.modulus := by
    rw [hvalue]
    exact Nat.mod_lt _ (by omega)
  have hnegative : compared.flag .negative = w.isNegative (Alu.sub w x y).value.toNat :=
    (hflag .negative).trans (Width.testBit_eq hfits)
  have hoverflow : compared.flag .overflow = w.overflows (w.signed x - w.signed y) :=
    hflag .overflow
  refine ⟨?_, ?_, ?_, hoverflow, ?_⟩
  · rw [hflag .carry]
    show decide _ = _
    rw [decide_eq_decide]
    omega
  · rw [hflag .zero]
    show decide _ = _
    rw [decide_eq_decide, hvalue, mod_of_lt_twice (by omega), ← UInt16.toNat_inj]
    split_ifs <;> omega
  · have hmodulus := w.modulus_eq
    rw [hnegative, Width.signed, Width.signed, Int.bmod_sub_bmod, Int.sub_bmod_bmod, Int.bmod_def,
      ← hsub.value]
    show decide _ = _
    rw [decide_eq_decide]
    split_ifs <;> omega
  · rw [hnegative, hoverflow, hvalue, w.signed_eq, w.signed_eq, Width.cut_of_fits hx,
      Width.cut_of_fits hy]
    exact Width.isNegative_sub hx hy

/-- Behind a comparison a condition holds if the integers are related as it says. -/
theorem Condition.holds_compared (c : Condition) (file : RegisterFile) :
    c.holds { file with cc := (Alu.sub w x y).flags.apply file.cc } = true ↔ c.Relates w x y := by
  obtain ⟨hcarry, hzero, hnegative, hoverflow, hless⟩ := flags_compared hx hy file
  have hgreaterOrEqual := congrArg (! ·) hless
  simp only [bne, Bool.not_not] at hgreaterOrEqual
  have hsame := signed_inj hx hy
  cases c with
  | always => simp [holds, Relates]
  | equal | notEqual => simp [holds, Relates, hzero]
  | carrySet | carryClear => simp [holds, Relates, hcarry]
  | negative | positive => simp [holds, Relates, hnegative]
  | overflowSet | overflowClear => simp [holds, Relates, hoverflow]
  | less => simp [holds, Relates, hless]
  | greaterOrEqual => simp [holds, Relates, hgreaterOrEqual]
  | greater =>
      simp only [holds, Relates, hgreaterOrEqual, hzero, ← hsame, Bool.and_eq_true,
        Bool.not_eq_true', decide_eq_false_iff_not]
      omega
  | lessOrEqual =>
      simp only [holds, Relates, hless, hzero, ← hsame, Bool.or_eq_true, decide_eq_true_eq]
      omega

end

namespace Machine

variable {m : Machine} {i : Instruction}

/-- The value that an immediate or extended operand at the program counter stands for. -/
def comparand (m : Machine) (i : Instruction) : UInt16 :=
  let (operand, read) := m.takeOperand i
  if i.mode = .immediate then operand else (read.read i.width operand).1

theorem toNat_get_lt (file : RegisterFile) (r : Register) :
    (file.get r).toNat < (Width.ofRegister r).modulus := by
  cases r with
  | a => exact file.a.toNat_lt
  | b => exact file.b.toNat_lt
  | d | x | y => exact UInt16.toNat_lt _

theorem toNat_read_lt (m : Machine) (w : Width) (address : UInt16) :
    (m.read w address).1.toNat < w.modulus := by
  cases w with
  | byte => exact (m.bus.peek address).1.toNat_lt
  | word => exact UInt16.toNat_lt _

/-- The value compared with is as wide as the register. -/
theorem toNat_comparand_lt (m : Machine) (hi : i ∈ Instruction.table) :
    (m.comparand i).toNat < i.width.modulus := by
  unfold comparand
  dsimp only
  split
  · next hmode =>
    have hlength := Instruction.operandLength_eq_one_iff hi hmode
    cases hw : i.width with
    | word => exact UInt16.toNat_lt _
    | byte =>
        rw [takeOperand, hlength.mpr hw]
        exact m.fetch.2.fetch.1.toNat_lt
  · exact toNat_read_lt _ _ _

/-- The operand of a comparison, once read, gives the value compared with. -/
theorem resolve_comparison (m : Machine) {r : Register} (hr : i.mnemonic = .compare r)
    (hmode : i.mode = .immediate ∨ i.mode = .extended) :
    ∃ argument, resolve i (m.takeOperand i).1 (m.takeOperand i).2.registers =
        some (argument, (m.takeOperand i).2.registers) ∧
      ((m.takeOperand i).2.operandValue (.ofRegister r) argument).1 = m.comparand i := by
  have hwidth : i.width = .ofRegister r := by rw [Instruction.width, hr]; rfl
  unfold comparand resolve
  rcases hmode with h | h
  · exact ⟨.value (m.takeOperand i).1, by simp only [h], by simp only [h, if_true, operandValue]⟩
  · refine ⟨.address (m.takeOperand i).1, by simp only [h], ?_⟩
    simp only [h, reduceCtorEq, if_false, hwidth, operandValue]

/-- A comparison settles the condition codes of a difference, and only moves on otherwise. -/
theorem step_compare (hi : Instruction.decode m.fetch.1 = some i) {r : Register}
    (hr : i.mnemonic = .compare r) (hmode : i.mode = .immediate ∨ i.mode = .extended) :
    ∃ s after, m.step = (.ok s, after) ∧ s.instruction = i ∧
      after.registers = { m.registers with
        pc := m.registers.pc + UInt16.ofNat i.length
        cc := (Alu.sub (.ofRegister r) (m.registers.get r) (m.comparand i)).flags.apply
          m.registers.cc } := by
  obtain ⟨htable, -⟩ := Instruction.decode_eq_some_iff.mp hi
  obtain ⟨argument, hresolve, hvalue⟩ := m.resolve_comparison hr hmode
  have hregisters := m.registers_takeOperand htable
  have hprepare := prepare_of_decode hi
  rw [hresolve] at hprepare
  let p : Prepared := { address := m.registers.pc, instruction := i, argument }
  have hfault : (m.takeOperand i).2.stackFault? p = none := by
    simp only [stackFault?, p, hr]
  refine ⟨p.outcome, (m.takeOperand i).2.perform p, ?_, rfl, ?_⟩
  · rw [step_of_prepare hprepare]
    dsimp only
    rw [hfault]
  · simp only [perform, p, hr, hvalue, setFlags, registers_operandValue, hregisters,
      RegisterFile.get_with]

/-- A branch goes to its target if its condition holds, and else moves on. -/
theorem step_branch (hi : Instruction.decode m.fetch.1 = some i) {c : Condition}
    (hc : i.mnemonic = .branch c) :
    ∃ s after, m.step = (.ok s, after) ∧ s.instruction = i ∧
      after.registers = { m.registers with
        pc := if c.holds m.registers then
            Instruction.branchTarget (m.registers.pc + UInt16.ofNat 2) m.fetch.2.fetch.1
          else m.registers.pc + UInt16.ofNat 2 } := by
  obtain ⟨htable, -⟩ := Instruction.decode_eq_some_iff.mp hi
  have hmode : i.mode = .relative := (Instruction.isBranch_iff htable).mp (by rw [hc]; rfl)
  have hlength := Instruction.operandLength_eq htable
  rw [hmode] at hlength
  change i.operandLength = 1 at hlength
  have hregisters := m.registers_takeOperand htable
  rw [Instruction.length, hlength] at hregisters
  have hprepare := prepare_of_decode hi
  have hoperand : lowByte (m.takeOperand i).1 = m.fetch.2.fetch.1 := by
    rw [takeOperand, hlength]
    exact lowByte_toUInt16 _
  simp only [resolve, hmode, hoperand] at hprepare
  let target := Instruction.branchTarget (m.takeOperand i).2.registers.pc m.fetch.2.fetch.1
  let p : Prepared :=
    { address := m.registers.pc, instruction := i, argument := .address target }
  have hfault : (m.takeOperand i).2.stackFault? p = none := by
    simp only [stackFault?, p, hc]
  have hholds : c.holds (m.takeOperand i).2.registers = c.holds m.registers :=
    Condition.holds_congr (by rw [hregisters]) c
  refine ⟨p.outcome, (m.takeOperand i).2.perform p, ?_, rfl, ?_⟩
  · rw [step_of_prepare hprepare, hfault]
  · simp only [perform, p, hc, hholds]
    split
    · simp only [jump, Argument.effectiveAddress, target, hregisters]
    · exact hregisters

/-- A branch behind a comparison is taken if the register and the value are related as its condition
says, and goes as far from the next instruction as its displacement says. -/
theorem branch_of_comparison (hi : Instruction.decode m.fetch.1 = some i) {r : Register}
    (hr : i.mnemonic = .compare r) (hmode : i.mode = .immediate ∨ i.mode = .extended) :
    (m.comparand i).toNat < (Width.ofRegister r).modulus ∧
    ∃ s compared, m.step = (.ok s, compared) ∧ s.instruction = i ∧
      compared.registers.pc = m.registers.pc + UInt16.ofNat i.length ∧
      ∀ j c, Instruction.decode compared.fetch.1 = some j → j.mnemonic = .branch c →
        ∃ t branched, compared.step = (.ok t, branched) ∧ t.instruction = j ∧
          (c.Relates (.ofRegister r) (m.registers.get r) (m.comparand i) →
            (branched.registers.pc.toNat : Int) = (compared.registers.pc.toNat + 2 +
              compared.fetch.2.fetch.1.toInt8.toInt) % 65536) ∧
          (¬c.Relates (.ofRegister r) (m.registers.get r) (m.comparand i) →
            (branched.registers.pc.toNat : Int) = (compared.registers.pc.toNat + 2) % 65536) := by
  obtain ⟨htable, -⟩ := Instruction.decode_eq_some_iff.mp hi
  have hfits := m.toNat_comparand_lt htable
  rw [show i.width = .ofRegister r by rw [Instruction.width, hr]; rfl] at hfits
  obtain ⟨s, compared, hstep, hs, hregisters⟩ := step_compare hi hr hmode
  refine ⟨hfits, s, compared, hstep, hs, by rw [hregisters], fun j c hj hc => ?_⟩
  obtain ⟨t, branched, hbranch, ht, hpc⟩ := step_branch hj hc
  have hholds : c.holds compared.registers = true ↔
      c.Relates (.ofRegister r) (m.registers.get r) (m.comparand i) := by
    rw [hregisters]
    exact Condition.holds_compared (toNat_get_lt m.registers r) hfits c
      { m.registers with pc := m.registers.pc + UInt16.ofNat i.length }
  refine ⟨t, branched, hbranch, ht, fun h => ?_, fun h => ?_⟩
  · rw [hpc, if_pos (hholds.mpr h)]
    exact Instruction.toNat_branchTarget _ 2 _
  · rw [hpc, if_neg (mt hholds.mp h)]
    show ((compared.registers.pc + 2).toNat : Int) = _
    rw [UInt16.toNat_add]
    rfl

/-- Comparing the least byte with a sign with one, and branching back over both instructions. The
difference overflows, and without a sign the byte is the greater one. -/
theorem branches_back_from_least_byte :
    let m : Machine := { registers := { a := 0x80, pc := 16 }
                         bus := ({} : Bus).pokeAll 16 [0x68, 0x01, 0xCA, 0xFC] }
    let i : Instruction := ⟨.compare .a, .immediate, 0x68, 1⟩
    let j : Instruction := ⟨.branch .less, .relative, 0xCA, 1⟩
    Instruction.decode m.fetch.1 = some i ∧ m.comparand i = 1 ∧
      Condition.less.Relates .byte (m.registers.get .a) 1 ∧
      ∃ s compared t branched, m.step = (.ok s, compared) ∧ compared.step = (.ok t, branched) ∧
        s.instruction = i ∧ t.instruction = j ∧ branched.registers.pc.toNat = 16 := by
  intro m i j
  have hi : Instruction.decode m.fetch.1 = some i := by decide +kernel
  have hvalue : m.comparand i = 1 := by decide +kernel
  have hless : Width.byte.signed (m.registers.get .a) < Width.byte.signed 1 := by
    decide +kernel
  have hj : Instruction.decode m.step.2.fetch.1 = some j := by decide +kernel
  have hplace : m.step.2.registers.pc.toNat = 18 ∧ m.step.2.fetch.2.fetch.1 = 0xFC := by
    decide +kernel
  obtain ⟨-, s, compared, hstep, hs, -, hbranch⟩ := branch_of_comparison hi rfl (.inl rfl)
  rw [hstep] at hj hplace
  obtain ⟨t, branched, hnext, ht, htaken, -⟩ := hbranch j .less hj rfl
  have hpc := htaken (by rw [hvalue]; exact hless)
  rw [hplace.1, hplace.2] at hpc
  exact ⟨hi, hvalue, hless, s, compared, t, branched, hstep, hnext, hs, ht, Int.ofNat_inj.mp hpc⟩

end Machine

end B33
