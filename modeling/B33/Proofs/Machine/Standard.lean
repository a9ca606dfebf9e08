import B33.Proofs.Bus.Standard
import B33.Proofs.Machine.Fetch

/-!
# Reading an instruction among the standard devices

An instruction can lie anywhere, also where the devices are. Its bytes are those that can be seen
there without a side effect, for a key that is taken on the way cannot change a byte that is still to
be read. What the machine takes the bytes for depends on them and on the registers alone.
-/
namespace B33

namespace Bus

/-- Whether one of the `n` addresses from an address on hands out keys. -/
def handsOutKey (address : UInt16) (n : Nat) : Bool :=
  (List.range n).any fun i => address + UInt16.ofNat i == keyAddress

theorem handsOutKey_succ (address : UInt16) (n : Nat) :
    handsOutKey address (n + 1) = (address == keyAddress || handsOutKey (address + 1) n) := by
  simp only [handsOutKey, List.range_succ_eq_map, List.any_cons, List.any_map]
  congr 1
  · simp
  · congr 1
    funext i
    rw [Function.comp_apply, add_ofNat_succ]

/-- Behind the address that hands out keys comes the beginning of memory. -/
theorem toNat_keyAddress_add {n : Nat} (h : n < 0xFFFF) :
    (keyAddress + 1 + UInt16.ofNat n).toNat = n := by
  rw [UInt16.toNat_add, UInt16.toNat_ofNat']
  show (0 + n % 65536) % 65536 = n
  omega

theorem handsOutKey_of_keyAddress {n : Nat} (h : n ≤ 0xFFFE) :
    handsOutKey (keyAddress + 1) n = false := by
  rw [handsOutKey, List.any_eq_false]
  intro i hi
  have hlt := List.mem_range.mp hi
  rw [beq_iff_eq, ← UInt16.toNat_inj, toNat_keyAddress_add (by omega)]
  show i ≠ 65535
  omega

theorem bytesAt_succ (b : Bus) (address : UInt16) (n : Nat) :
    b.bytesAt address (n + 1) = b.inspect address :: b.bytesAt (address + 1) n := by
  simp only [bytesAt, List.range_succ_eq_map, List.map_cons, List.map_map]
  congr 1
  · simp
  · apply List.map_congr_left
    intro i _
    rw [Function.comp_apply, add_ofNat_succ]

theorem bytesAt_one (b : Bus) (address : UInt16) : b.bytesAt address 1 = [b.inspect address] := by
  rw [bytesAt_succ]
  rfl

theorem bytesAt_two (b : Bus) (address : UInt16) :
    b.bytesAt address 2 = [b.inspect address, b.inspect (address + 1)] := by
  rw [bytesAt_succ, bytesAt_one]

@[simp] theorem handsOutKey_zero (address : UInt16) : handsOutKey address 0 = false := rfl

/-- The bus after the machine has read `n` bytes from an address on. -/
def afterReading (b : Bus) (address : UInt16) (n : Nat) : Bus :=
  if handsOutKey address n then { b with keys := b.keys.tail } else b

theorem afterReading_one (b : Bus) (address : UInt16) :
    b.afterReading address 1 = if address = keyAddress then { b with keys := b.keys.tail } else b := by
  simp only [afterReading, handsOutKey_succ, handsOutKey_zero, Bool.or_false, beq_iff_eq]

theorem afterReading_succ (b : Bus) (address : UInt16) {n : Nat} (hn : n ≤ 0xFFFE) :
    (b.afterReading address 1).afterReading (address + 1) n = b.afterReading address (n + 1) := by
  rw [afterReading_one]
  by_cases hkey : address = keyAddress
  · subst hkey
    rw [if_pos rfl, afterReading, afterReading, handsOutKey_of_keyAddress hn, handsOutKey_succ]
    rfl
  · have hbeq : (address == keyAddress) = false := beq_false_of_ne hkey
    rw [if_neg hkey, afterReading, afterReading, handsOutKey_succ, hbeq, Bool.false_or]

theorem IsStandard.afterReading {b : Bus} (h : b.IsStandard) (address : UInt16) (n : Nat) :
    (b.afterReading address n).IsStandard := by
  rw [Bus.afterReading]
  split
  · exact h.of_devices rfl
  · exact h

/-- A key that was taken does not change the bytes that come behind it. -/
theorem IsStandard.bytesAt_afterReading {b : Bus} (h : b.IsStandard) (address : UInt16) {n : Nat}
    (hn : n ≤ 0xFFFE) :
    (b.afterReading address 1).bytesAt (address + 1) n = b.bytesAt (address + 1) n := by
  rw [afterReading_one]
  split
  · next hkey =>
    subst hkey
    apply List.map_congr_left
    intro i hi
    have hlt := List.mem_range.mp hi
    have hi' := @toNat_keyAddress_add i (by omega)
    refine h.inspect_keys ?_ ?_ _
    · rw [ne_eq, ← UInt16.toNat_inj, hi']
      show i ≠ 65534
      omega
    · rw [ne_eq, ← UInt16.toNat_inj, hi']
      show i ≠ 65535
      omega
  · rfl

end Bus

namespace Machine
open Bus

/-- The machine after reading `n` bytes at its program counter. -/
def advance (m : Machine) (n : Nat) : Machine :=
  { m with
    registers := { m.registers with pc := m.registers.pc + UInt16.ofNat n }
    bus := m.bus.afterReading m.registers.pc n }

/-- The bytes of the operand of an instruction at the program counter, taken as a word. -/
def operand (m : Machine) (i : Instruction) : UInt16 :=
  operandWord (m.bus.bytesAt (m.registers.pc + 1) i.operandLength)

variable {m : Machine}

theorem fetch_standard (h : m.bus.IsStandard) :
    m.fetch = (m.bus.inspect m.registers.pc, m.advance 1) := by
  simp only [fetch, h.peek_eq, advance, afterReading_one]
  rfl

theorem advance_succ (m : Machine) {n : Nat} (hn : n ≤ 0xFFFE) :
    (m.advance 1).advance n = m.advance (n + 1) := by
  have hpc : m.registers.pc + UInt16.ofNat 1 + UInt16.ofNat n =
      m.registers.pc + UInt16.ofNat (n + 1) := add_ofNat_succ _ _
  have hbus := m.bus.afterReading_succ m.registers.pc hn
  simp only [advance, hpc]
  exact congrArg _ hbus

/-- The bytes at the program counter are read as they can be seen. -/
theorem fetchBytes_standard (h : m.bus.IsStandard) {n : Nat} (hn : n ≤ 0xFFFF) :
    m.fetchBytes n = (m.bus.bytesAt m.registers.pc n, m.advance n) := by
  induction n generalizing m with
  | zero => simp [fetchBytes, bytesAt, advance, afterReading]
  | succ n ih =>
      have hrest := @ih (m.advance 1) (h.afterReading _ 1) (by omega)
      have hbytes : (m.advance 1).bus.bytesAt (m.advance 1).registers.pc n =
          m.bus.bytesAt (m.registers.pc + 1) n := h.bytesAt_afterReading _ (by omega)
      rw [hbytes, m.advance_succ (by omega)] at hrest
      simp only [fetchBytes, fetch_standard h, hrest, bytesAt_succ]

theorem operand_byte {i : Instruction} (hi : i.operandLength = 1) :
    m.operand i = (m.bus.inspect (m.registers.pc + 1)).toUInt16 := by
  rw [operand, hi, bytesAt_one]
  rfl

theorem operand_word {i : Instruction} (hi : i.operandLength = 2) :
    m.operand i = m.bus.inspectWord (m.registers.pc + 1) := by
  rw [operand, hi, bytesAt_two]
  rfl

theorem fetch_fetch_standard (h : m.bus.IsStandard) :
    m.fetch.2.fetch = (m.bus.inspect (m.registers.pc + 1), m.advance 2) := by
  have htwo := fetchBytes_standard h (n := 2) (by decide)
  simp only [fetchBytes, bytesAt_succ, Prod.mk.injEq, List.cons.injEq] at htwo
  exact Prod.ext htwo.1.2.1 htwo.2

/-- What is read at the program counter follows from what can be seen there. -/
theorem prepare_standard (h : m.bus.IsStandard) :
    m.prepare =
      match Instruction.decode (m.bus.inspect m.registers.pc) with
      | none =>
        (.error (.unknownOpcode (m.bus.inspect m.registers.pc) m.registers.pc), m.advance 1)
      | some i =>
        match resolve i (m.operand i) (m.advance i.length).registers with
        | none =>
          (.error (.illegalIndex (lowByte (m.operand i)) m.registers.pc), m.advance i.length)
        | some (argument, registers) =>
          (.ok { address := m.registers.pc, instruction := i, argument },
            { m.advance i.length with registers }) := by
  unfold prepare
  dsimp only
  rw [fetch_standard h]
  dsimp only
  cases hi : Instruction.decode (m.bus.inspect m.registers.pc) with
  | none => rfl
  | some i =>
      obtain ⟨htable, -⟩ := Instruction.decode_eq_some_iff.mp hi
      have htwo := Instruction.operandLength_le_two htable
      have hall := fetchBytes_standard h (n := i.operandLength + 1) (by omega)
      simp only [fetchBytes, fetch_standard h, bytesAt_succ, Prod.mk.injEq, List.cons.injEq,
        true_and] at hall
      have hbytes : (m.advance 1).fetchBytes i.operandLength =
          (m.bus.bytesAt (m.registers.pc + 1) i.operandLength, m.advance i.length) := by
        rw [Instruction.length, Nat.add_comm]
        exact Prod.ext hall.1 hall.2
      dsimp only
      rw [fetchOperand_eq _ htwo, hbytes]
      rfl

end Machine

end B33
