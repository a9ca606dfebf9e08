import B33.Machine.Step
import B33.Proofs.Alu
import B33.Proofs.Bus.Standard

/-!
# What an instruction changes

Each family of instructions has a register that it changes and condition codes that it settles. It
reads memory, writes to it or leaves it alone, and all that it does to the bus is one after another
of these accesses.
-/
namespace B33

/-- Whether one register shows a change of the other: `D` is made of `A` and `B`. -/
def Register.overlaps : Register → Register → Bool
  | .d, .a | .d, .b | .a, .d | .b, .d => true
  | r, s => r == s

theorem RegisterFile.get_set_of_apart {changed r : Register} (h : changed.overlaps r = false)
    (file : RegisterFile) (value : UInt16) : (file.set changed value).get r = file.get r := by
  cases changed <;> cases r <;> first | rfl | cases h

@[simp] theorem RegisterFile.cc_set (file : RegisterFile) (r : Register) (value : UInt16) :
    (file.set r value).cc = file.cc := by
  cases r <;> rfl

/-- The registers with a value in one of them, some condition codes settled and the program counter
set. -/
def RegisterFile.changed (file : RegisterFile) (destination : Option Register) (value : UInt16)
    (codes : FlagChange) (pc : UInt16) : RegisterFile :=
  { (destination.map fun r => file.set r value).getD file with
    cc := codes.apply file.cc
    pc }

/-- The addresses of a byte or a word. -/
def Width.addresses (address : UInt16) : Width → List UInt16
  | byte => [address]
  | word => [address, address + 1]

/-- The bytes of a byte or a word, each with its address. -/
def Width.parts (address value : UInt16) : Width → List (UInt16 × UInt8)
  | byte => [(address, lowByte value)]
  | word => [(address, lowByte value), (address + 1, highByte value)]

namespace Mnemonic

/-- The register that an instruction changes. -/
def destination? : Mnemonic → Option Register
  | load r | inc r | dec r | pop r => some r
  | arithmetic _ r | clr r => some r.register
  | bitwise _ r | unary _ r => some r.register
  | transfer t => some t.destination
  | _ => none

/-- The condition codes that an instruction settles. -/
def settled : Mnemonic → List Flag
  | load _ | bitwise .. | inc _ | dec _ => [.zero, .negative, .overflow]
  | arithmetic .. | compare _ | clr _ | unary .com _ | unary .lsl _ =>
    [.carry, .zero, .negative, .overflow]
  | unary .lsr _ => [.carry, .zero, .negative]
  | clc | sec => [.carry]
  | _ => []

/-- The register that gives the width of what an instruction reads at its address. -/
def reader? : Mnemonic → Option Register
  | load r | compare r => some r
  | arithmetic _ r => some r.register
  | bitwise _ r => some r.register
  | _ => none

/-- The register that an instruction stores. -/
def stored? : Mnemonic → Option Register
  | store r => some r
  | _ => none

/-- The addresses that an instruction reads if its operand means an address. -/
def reads (m : Mnemonic) (address : UInt16) : List UInt16 :=
  (m.reader?.map fun r => (Width.ofRegister r).addresses address).getD []

/-- What an instruction writes, and where. -/
def writes (m : Mnemonic) (address : UInt16) (file : RegisterFile) : List (UInt16 × UInt8) :=
  (m.stored?.map fun r => (Width.ofRegister r).parts address (file.get r)).getD []

/-- What an instruction does to the stack. -/
def Moves (before after : List UInt16) : Mnemonic → Prop
  | call | push _ => ∃ value, after = value :: before
  | ret | pop _ => ∃ value, before = value :: after
  | _ => after = before

end Mnemonic

/-- The addresses that an instruction reads once its operand is read. -/
def Prepared.reads (p : Prepared) : List UInt16 :=
  match p.argument with
  | .address a => p.instruction.mnemonic.reads a
  | _ => []

namespace Bus

/-- The bus after a read of each address. -/
def readAll (b : Bus) (addresses : List UInt16) : Bus :=
  addresses.foldl (fun b address => (b.peek address).2) b

/-- The bus after each byte is written to its address. -/
def writeAll (b : Bus) (writes : List (UInt16 × UInt8)) : Bus :=
  writes.foldl (fun b write => b.poke write.1 write.2) b

end Bus

namespace Machine

variable {m : Machine} {p : Prepared}

@[simp] theorem registers_operandValue (m : Machine) (width : Width) (argument : Argument) :
    (m.operandValue width argument).2.registers = m.registers := by
  cases argument with
  | none | value => rfl
  | address a => cases width <;> rfl

@[simp] theorem stack_operandValue (m : Machine) (width : Width) (argument : Argument) :
    (m.operandValue width argument).2.stack = m.stack := by
  cases argument with
  | none | value => rfl
  | address a => cases width <;> rfl

@[simp] theorem registers_write (m : Machine) (width : Width) (address value : UInt16) :
    (m.write width address value).registers = m.registers := by
  cases width <;> rfl

@[simp] theorem stack_write (m : Machine) (width : Width) (address value : UInt16) :
    (m.write width address value).stack = m.stack := by
  cases width <;> rfl

/-- Whether an instruction puts an address into the program counter. -/
def redirects (m : Machine) : Mnemonic → Bool
  | .jmp | .call | .ret => true
  | .branch c => c.holds m.registers
  | _ => false

theorem registers_setRegister (m : Machine) (r : Register) (value : UInt16) :
    (m.setRegister r value).registers =
      m.registers.changed (some r) value {} m.registers.pc := by
  cases r <;> rfl

theorem registers_setFlags {after : Machine} (h : after.registers = m.registers)
    (codes : FlagChange) :
    (after.setFlags codes).registers = m.registers.changed none 0 codes m.registers.pc := by
  rw [← h]
  rfl

theorem registers_setResult {after : Machine} (h : after.registers = m.registers) (r : Register)
    (result : Alu.Result) :
    (after.setResult r result).registers =
      m.registers.changed (some r) result.value result.flags m.registers.pc := by
  rw [← h]
  cases r <;> rfl

/-- All that an instruction does to the registers. -/
theorem registers_perform (h : m.stackFault? p = none) :
    ∃ value codes pc, (m.perform p).registers =
        m.registers.changed p.instruction.mnemonic.destination? value codes pc ∧
      codes.settled = p.instruction.mnemonic.settled ∧
      (m.redirects p.instruction.mnemonic = false → pc = m.registers.pc) := by
  unfold perform
  unfold stackFault? at h
  cases hm : p.instruction.mnemonic with
  | hlt | nop | push r => exact ⟨0, {}, m.registers.pc, rfl, rfl, fun _ => rfl⟩
  | store r => exact ⟨0, {}, m.registers.pc, registers_write _ _ _ _, rfl, fun _ => rfl⟩
  | clc => exact ⟨0, { carry := some false }, m.registers.pc, rfl, rfl, fun _ => rfl⟩
  | sec => exact ⟨0, { carry := some true }, m.registers.pc, rfl, rfl, fun _ => rfl⟩
  | jmp | call => exact ⟨0, {}, p.argument.effectiveAddress, rfl, rfl, nofun⟩
  | ret =>
      cases hstack : m.stack with
      | nil => simp [hm, hstack] at h
      | cons address stack => exact ⟨0, {}, address, rfl, rfl, nofun⟩
  | pop r =>
      cases hstack : m.stack with
      | nil => simp [hm, hstack] at h
      | cons value stack =>
          exact ⟨value, {}, _, registers_setRegister { m with stack } r value, rfl, fun _ => rfl⟩
  | transfer t => exact ⟨_, {}, _, registers_setRegister m _ _, rfl, fun _ => rfl⟩
  | branch c =>
      dsimp only
      split
      · next hc => exact ⟨0, {}, p.argument.effectiveAddress, rfl, rfl, by simp [redirects, hc]⟩
      · exact ⟨0, {}, m.registers.pc, rfl, rfl, fun _ => rfl⟩
  | load r =>
      exact ⟨_, Alu.load _ _, _, registers_setResult (registers_operandValue m _ _) r ⟨_, _⟩, rfl,
        fun _ => rfl⟩
  | arithmetic op r =>
      cases op with
      | add | sub =>
          exact ⟨_, _, _, registers_setResult (registers_operandValue m _ _) _ _, rfl, fun _ => rfl⟩
  | bitwise op r =>
      cases op with
      | and | or | eor =>
          exact ⟨_, _, _, registers_setResult (registers_operandValue m _ _) _ _, rfl, fun _ => rfl⟩
  | compare r =>
      exact ⟨_, _, _, registers_setFlags (registers_operandValue m _ _) _, rfl, fun _ => rfl⟩
  | inc r | dec r => exact ⟨_, _, _, registers_setResult rfl r _, rfl, fun _ => rfl⟩
  | clr r => exact ⟨_, _, _, registers_setResult rfl _ _, rfl, fun _ => rfl⟩
  | unary op r =>
      cases op with
      | com | lsl | lsr => exact ⟨_, _, _, registers_setResult rfl _ _, rfl, fun _ => rfl⟩

theorem stack_perform (h : m.stackFault? p = none) :
    p.instruction.mnemonic.Moves m.stack (m.perform p).stack := by
  unfold perform
  unfold stackFault? at h
  cases hm : p.instruction.mnemonic with
  | ret | pop r =>
      cases hstack : m.stack with
      | nil => simp [hm, hstack] at h
      | cons value stack => exact ⟨value, rfl⟩
  | call | push r => exact ⟨_, rfl⟩
  | store r => exact stack_write _ _ _ _
  | load r | arithmetic op r | bitwise op r | compare r => exact stack_operandValue _ _ _
  | branch c =>
      dsimp only
      split <;> rfl
  | hlt | nop | clc | sec | jmp | inc r | dec r | clr r | unary op r | transfer t => rfl

theorem bus_write (m : Machine) (width : Width) (address value : UInt16) :
    (m.write width address value).bus = m.bus.writeAll (width.parts address value) := by
  cases width <;> rfl

theorem bus_operandValue (m : Machine) (width : Width) (argument : Argument) :
    (m.operandValue width argument).2.bus = m.bus.readAll
      (match argument with
        | .address a => width.addresses a
        | _ => []) := by
  cases argument with
  | none | value => rfl
  | address a => cases width <;> rfl

theorem reads_of_not_reader (h : p.instruction.mnemonic.reader? = none) : p.reads = [] := by
  unfold Prepared.reads Mnemonic.reads
  rw [h]
  split <;> rfl

/-- All that an instruction does to the bus. -/
theorem bus_perform (m : Machine) (p : Prepared) :
    (m.perform p).bus = (m.bus.readAll p.reads).writeAll
      (p.instruction.mnemonic.writes p.argument.effectiveAddress m.registers) := by
  cases hreader : p.instruction.mnemonic.reader? with
  | some _ =>
      unfold perform Prepared.reads
      cases hm : p.instruction.mnemonic with
      | load r | arithmetic op r | bitwise op r | compare r => exact bus_operandValue _ _ _
      | _ => simp [hm, Mnemonic.reader?] at hreader
  | none =>
      rw [reads_of_not_reader hreader]
      unfold perform
      cases hm : p.instruction.mnemonic with
      | load r | arithmetic op r | bitwise op r | compare r =>
          simp [hm, Mnemonic.reader?] at hreader
      | store r => exact bus_write _ _ _ _
      | ret | pop r => cases m.stack <;> rfl
      | branch c =>
          dsimp only
          split <;> rfl
      | hlt | nop | clc | sec | jmp | call | push r | inc r | dec r | clr r | unary op r
      | transfer t => rfl

end Machine

end B33
