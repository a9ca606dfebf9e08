import B33.Proofs.Machine.Fetch

/-!
# Indexed operands

An index register can shrink before its address is formed and can grow afterwards. It grows as soon
as the address is known, which is before the access. Only an instruction that works on its own index
register can tell the difference: to all others it looks as if the register grew at the end.
-/
namespace B33

namespace RegisterFile

variable {index : Register}

theorem get_set_index (hindex : IndexForm.isIndex index) (r : RegisterFile) (v : UInt16) :
    (r.set index v).get index = v := by
  cases index with
  | x | y => rfl
  | a | b | d => cases hindex

theorem set_get_index (hindex : IndexForm.isIndex index) (r : RegisterFile) :
    r.set index (r.get index) = r := by
  cases index with
  | x | y => rfl
  | a | b | d => cases hindex

/-- Setting an index register leaves every other register as it was. -/
theorem get_set_of_ne (hindex : IndexForm.isIndex index) {reg : Register} (hne : reg ≠ index)
    (r : RegisterFile) (v : UInt16) : (r.set index v).get reg = r.get reg := by
  cases index with
  | x =>
      cases reg with
      | x => exact absurd rfl hne
      | a | b | d | y => rfl
  | y =>
      cases reg with
      | y => exact absurd rfl hne
      | a | b | d | x => rfl
  | a | b | d => cases hindex

theorem set_set_of_ne (hindex : IndexForm.isIndex index) {reg : Register} (hne : reg ≠ index)
    (r : RegisterFile) (v w : UInt16) :
    (r.set index v).set reg w = (r.set reg w).set index v := by
  cases index with
  | x =>
      cases reg with
      | x => exact absurd rfl hne
      | a | b | d | y => rfl
  | y =>
      cases reg with
      | y => exact absurd rfl hne
      | a | b | d | x => rfl
  | a | b | d => cases hindex

end RegisterFile

/-- The mnemonics whose operand can be an address. -/
def Mnemonic.takesAddress : Mnemonic → Bool
  | load _ | store _ | arithmetic .. | bitwise .. | compare _ | jmp | call => true
  | _ => false

theorem Instruction.takesAddress_of_indexed {i : Instruction} (h : i ∈ table)
    (hmode : i.mode = .indexed) : i.mnemonic.takesAddress = true ∧ i.operandLength = 1 := by
  have all : ∀ i ∈ table, i.mode = .indexed →
      i.mnemonic.takesAddress = true ∧ i.operandLength = 1 := by decide +kernel
  exact all i h hmode

namespace Machine

variable {index : Register}

theorem setRegister_comm (hindex : IndexForm.isIndex index) {reg : Register} (hne : reg ≠ index)
    (m : Machine) (v w : UInt16) :
    (m.setRegister index v).setRegister reg w = (m.setRegister reg w).setRegister index v := by
  rw [setRegister, setRegister, setRegister, setRegister,
    RegisterFile.set_set_of_ne hindex hne]

theorem get_setRegister_of_ne (hindex : IndexForm.isIndex index) {reg : Register}
    (hne : reg ≠ index) (m : Machine) (v : UInt16) :
    (m.setRegister index v).registers.get reg = m.registers.get reg :=
  RegisterFile.get_set_of_ne hindex hne m.registers v

theorem setFlags_setRegister (hindex : IndexForm.isIndex index) (m : Machine) (v : UInt16)
    (change : FlagChange) :
    (m.setRegister index v).setFlags change = (m.setFlags change).setRegister index v := by
  cases index with
  | x | y => rfl
  | a | b | d => cases hindex

theorem jump_setRegister (hindex : IndexForm.isIndex index) (m : Machine) (v address : UInt16) :
    (m.setRegister index v).jump address = (m.jump address).setRegister index v := by
  cases index with
  | x | y => rfl
  | a | b | d => cases hindex

theorem setResult_setRegister (hindex : IndexForm.isIndex index) {reg : Register}
    (hne : reg ≠ index) (m : Machine) (v : UInt16) (result : Alu.Result) :
    (m.setRegister index v).setResult reg result =
      (m.setResult reg result).setRegister index v := by
  rw [setResult, setResult, setRegister_comm hindex hne, setFlags_setRegister hindex]

theorem operandValue_setRegister (m : Machine) (v : UInt16) (width : Width) (argument : Argument) :
    (m.setRegister index v).operandValue width argument =
      ((m.operandValue width argument).1,
        (m.operandValue width argument).2.setRegister index v) := by
  cases argument with
  | none | value => rfl
  | address a => cases width <;> rfl

theorem write_setRegister (m : Machine) (v : UInt16) (width : Width) (address value : UInt16) :
    (m.setRegister index v).write width address value =
      (m.write width address value).setRegister index v := by
  cases width <;> rfl

/-- An instruction that does not work on an index register leaves it, and does the same whatever is
in it. -/
theorem perform_setRegister (hindex : IndexForm.isIndex index) {p : Prepared}
    (hp : p.instruction.mnemonic.takesAddress)
    (hne : p.instruction.mnemonic.register? ≠ some index) (m : Machine) (v : UInt16) :
    (m.setRegister index v).perform p = (m.perform p).setRegister index v := by
  have hreg {r : Register} (h : p.instruction.mnemonic.register? = some r) : r ≠ index :=
    fun heq => hne (heq ▸ h)
  unfold perform
  cases hm : p.instruction.mnemonic with
  | load r =>
      have hr : r ≠ index := hreg (by rw [hm]; rfl)
      dsimp only
      rw [operandValue_setRegister]
      dsimp only
      rw [setRegister_comm hindex hr, setFlags_setRegister hindex]
  | store r =>
      have hr : r ≠ index := hreg (by rw [hm]; rfl)
      dsimp only
      rw [write_setRegister, get_setRegister_of_ne hindex hr]
  | arithmetic op r =>
      have hr : r.register ≠ index := hreg (by rw [hm]; rfl)
      dsimp only
      rw [operandValue_setRegister]
      dsimp only
      rw [get_setRegister_of_ne hindex hr, setResult_setRegister hindex hr]
  | bitwise op r =>
      have hr : r.register ≠ index := hreg (by rw [hm]; rfl)
      dsimp only
      rw [operandValue_setRegister]
      dsimp only
      rw [get_setRegister_of_ne hindex hr, setResult_setRegister hindex hr]
  | compare r =>
      have hr : r ≠ index := hreg (by rw [hm]; rfl)
      dsimp only
      rw [operandValue_setRegister]
      dsimp only
      rw [get_setRegister_of_ne hindex hr, setFlags_setRegister hindex]
  | jmp => exact jump_setRegister hindex m v _
  | call =>
      cases index with
      | x | y => rfl
      | a | b | d => cases hindex
  | hlt | nop | ret | clc | sec | inc | dec | clr | unary | transfer | push | pop | branch =>
      simp [hm, Mnemonic.takesAddress] at hp

/-- Performing such an instruction does not change the index register. -/
theorem get_perform (hindex : IndexForm.isIndex index) {p : Prepared}
    (hp : p.instruction.mnemonic.takesAddress)
    (hne : p.instruction.mnemonic.register? ≠ some index) (m : Machine) :
    (m.perform p).registers.get index = m.registers.get index := by
  -- Set to what is in it, the register is the same afterwards, whatever was done.
  have hself : m.setRegister index (m.registers.get index) = m := by
    rw [setRegister, RegisterFile.set_get_index hindex]
  have h := perform_setRegister hindex hp hne m (m.registers.get index)
  rw [hself] at h
  rw [h]
  exact RegisterFile.get_set_index hindex _ _

/-- Moves an index register on by an amount. -/
def increment (m : Machine) (index : Register) (n : UInt8) : Machine :=
  m.setRegister index (m.registers.get index + n.toUInt16)

/-- Moves an index register back by an amount. -/
def decrement (m : Machine) (index : Register) (n : UInt8) : Machine :=
  m.setRegister index (m.registers.get index - n.toUInt16)

/-- Executes an indexed instruction of which opcode and index byte have been read. -/
def executeIndexed (m : Machine) (address : UInt16) (i : Instruction) (f : IndexForm) :
    Except Fault Step × Machine :=
  let (target, registers) := f.resolve m.registers
  let p : Prepared := { address, instruction := i, argument := .address target }
  let m := { m with registers }
  match m.stackFault? p with
  | some fault => (.error fault, m)
  | none => (.ok p.outcome, m.perform p)

/-- An indexed instruction is executed with the form that its index byte stands for. -/
theorem step_eq_executeIndexed {m : Machine} {i : Instruction} {f : IndexForm}
    (hi : Instruction.decode m.fetch.1 = some i) (hmode : i.mode = .indexed)
    (hf : IndexForm.decode m.fetch.2.fetch.1 = .ok f) :
    m.step = m.fetch.2.fetch.2.executeIndexed m.registers.pc i f := by
  obtain ⟨htable, -⟩ := Instruction.decode_eq_some_iff.mp hi
  have hlength := (Instruction.takesAddress_of_indexed htable hmode).2
  have hprepare : m.prepare = (.ok
      { address := m.registers.pc, instruction := i,
        argument := .address (f.resolve m.fetch.2.fetch.2.registers).1 },
      { m.fetch.2.fetch.2 with registers := (f.resolve m.fetch.2.fetch.2.registers).2 }) := by
    unfold prepare
    dsimp only
    rw [hi]
    dsimp only
    rw [hlength]
    simp only [fetchOperand, resolve, hmode, lowByte_toUInt16, hf]
  rw [step_of_prepare hprepare]
  rfl

/-- A decrement comes before everything else that the instruction does. -/
theorem executeIndexed_dec (m : Machine) (address : UInt16) (i : Instruction) (index : Register)
    (offset : Option Register) (n : UInt8) :
    m.executeIndexed address i { index, offset, step := .dec n } =
      (m.decrement index n).executeIndexed address i { index, offset } := rfl

/-- Whether an increment seems to come after everything else that the instruction does. -/
def GrowsLast (i : Instruction) (index : Register) (offset : Option Register) (n : UInt8) : Prop :=
  ∀ (m : Machine) (address : UInt16),
    m.executeIndexed address i { index, offset, step := .inc n } =
      ((m.executeIndexed address i { index, offset }).1,
        (m.executeIndexed address i { index, offset }).2.increment index n)

theorem growsLast (hindex : IndexForm.isIndex index) {i : Instruction}
    (hi : i.mnemonic.takesAddress) (hne : i.mnemonic.register? ≠ some index)
    (offset : Option Register) (n : UInt8) : GrowsLast i index offset n := by
  intro m address
  let p : Prepared :=
    { address, instruction := i,
      argument := .address (({ index, offset } : IndexForm).resolve m.registers).1 }
  have hperform : (m.increment index n).perform p = (m.perform p).increment index n := by
    rw [increment, perform_setRegister hindex hi hne, increment, get_perform hindex hi hne]
  have hplain : m.executeIndexed address i { index, offset } =
      match m.stackFault? p with
      | some fault => (.error fault, m)
      | none => (.ok p.outcome, m.perform p) := rfl
  have hgrown : m.executeIndexed address i { index, offset, step := .inc n } =
      match m.stackFault? p with
      | some fault => (.error fault, m.increment index n)
      | none => (.ok p.outcome, (m.increment index n).perform p) := rfl
  rw [hplain, hgrown]
  cases m.stackFault? p with
  | some fault => rfl
  | none => exact congrArg (Prod.mk _) hperform

/-- What a machine shows of the registers and of the word at address zero. -/
def seen (m : Machine) : RegisterFile × UInt8 × UInt8 := (m.registers, m.bus.ramAt 0, m.bus.ramAt 1)

/-- On an instruction that works on its own index register the order shows. -/
theorem not_growsLast {i : Instruction} (hi : i ∈ Instruction.table) (hmode : i.mode = .indexed)
    (hindex : IndexForm.isIndex index) (hown : i.mnemonic.register? = some index)
    {offset : Option Register} (hoffset : ∀ r, offset = some r → IndexForm.isOffset r) {n : UInt8}
    (hn : IndexForm.isAmount n) : ¬ GrowsLast i index offset n := by
  -- A new machine tells the two orders apart for every form: its memory is zero.
  have all : ∀ i ∈ Instruction.table, i.mode = .indexed → ∀ index ∈ [Register.x, .y],
      i.mnemonic.register? = some index → ∀ offset ∈ [none, some Register.a, some .b, some .d],
      ∀ n ∈ [(1 : UInt8), 2],
        seen (({} : Machine).executeIndexed 0 i { index, offset, step := .inc n }).2 ≠
          seen ((({} : Machine).executeIndexed 0 i { index, offset }).2.increment index n) := by
    decide +kernel
  intro h
  refine all i hi hmode index ?_ hown offset ?_ n ?_ (congrArg seen (Prod.ext_iff.mp (h {} 0)).2)
  · cases index with
    | x | y => decide
    | a | b | d => cases hindex
  · cases offset with
    | none => decide
    | some r =>
        cases r with
        | a | b | d => decide
        | x | y => cases hoffset _ rfl
  · simpa [IndexForm.isAmount] using hn

end Machine

namespace IndexForm

/-- By how much the index register shrinks before the address is formed. -/
def shrinkage (f : IndexForm) : Nat :=
  match f.step with
  | .dec n => n.toNat
  | _ => 0

/-- What an offset register adds to the address, a byte register its byte. -/
def offsetValue (r : RegisterFile) : Option Register → Nat
  | none => 0
  | some .a => r.a.toNat
  | some .b => r.b.toNat
  | some reg => (r.get reg).toNat

theorem toNat_offset (r : RegisterFile) (offset : Option Register) :
    ((offset.map r.get).getD 0).toNat = offsetValue r offset := by
  cases offset with
  | none => rfl
  | some reg =>
      cases reg with
      | a | b => exact UInt8.toNat_toUInt16 _
      | d | x | y => rfl

/-- An index register that moves does not change the offset. -/
theorem offset_set {index : Register} (hindex : isIndex index) {offset : Option Register}
    (hoffset : ∀ r, offset = some r → isOffset r) (r : RegisterFile) (v : UInt16) :
    (offset.map (r.set index v).get).getD 0 = (offset.map r.get).getD 0 := by
  cases offset with
  | none => rfl
  | some reg =>
      have hne : reg ≠ index := by
        rintro rfl
        have hreg := hoffset reg rfl
        cases reg with
        | x | y => cases hreg
        | a | b | d => cases hindex
      exact RegisterFile.get_set_of_ne hindex hne r v

theorem toNat_add_cast (v w : UInt16) :
    ((v + w).toNat : Int) = (v.toNat + w.toNat : Int) % 65536 := by
  rw [UInt16.toNat_add]
  omega

theorem toNat_sub_add_cast (v n w : UInt16) :
    ((v - n + w).toNat : Int) = (v.toNat - n.toNat + w.toNat : Int) % 65536 := by
  have hn := n.toNat_lt
  rw [UInt16.toNat_add, UInt16.toNat_sub]
  omega

/-- The address is the index register, once it has shrunk, and the offset. -/
theorem address_eq {f : IndexForm} (hindex : isIndex f.index)
    (hoffset : ∀ r, f.offset = some r → isOffset r) (r : RegisterFile) :
    ((f.resolve r).1.toNat : Int) =
      ((r.get f.index).toNat - f.shrinkage + offsetValue r f.offset) % 65536 := by
  obtain ⟨index, offset, step⟩ := f
  rw [← toNat_offset]
  cases step with
  | none | inc =>
      dsimp only [resolve, shrinkage]
      rw [toNat_add_cast]
      omega
  | dec n =>
      have haddress : (({ index, offset, step := .dec n } : IndexForm).resolve r).1 =
          r.get index - n.toUInt16 + (offset.map r.get).getD 0 := by
        dsimp only [resolve]
        rw [RegisterFile.get_set_index hindex, offset_set hindex hoffset]
      rw [haddress, toNat_sub_add_cast, UInt8.toNat_toUInt16]
      rfl

end IndexForm

namespace Machine

/-- An indexed instruction is executed with its form. A decrement comes first. An increment comes
last unless the instruction works on its own index register. -/
theorem step_indexed {i : Instruction} (hi : i ∈ Instruction.table) (hmode : i.mode = .indexed)
    {index : Register} (hindex : IndexForm.isIndex index) {offset : Option Register}
    (hoffset : ∀ r, offset = some r → IndexForm.isOffset r) {n : UInt8}
    (hn : IndexForm.isAmount n) :
    (∀ (m : Machine) (f : IndexForm), Instruction.decode m.fetch.1 = some i →
        IndexForm.decode m.fetch.2.fetch.1 = .ok f →
        m.step = m.fetch.2.fetch.2.executeIndexed m.registers.pc i f) ∧
      (∀ (m : Machine) (address : UInt16),
        m.executeIndexed address i { index, offset, step := .dec n } =
          (m.decrement index n).executeIndexed address i { index, offset }) ∧
      (∀ (step : IndexStep) (r : RegisterFile),
        ((({ index, offset, step } : IndexForm).resolve r).1.toNat : Int) =
          ((r.get index).toNat - ({ index, offset, step } : IndexForm).shrinkage +
            IndexForm.offsetValue r offset) % 65536) ∧
      (GrowsLast i index offset n ↔ i.mnemonic.register? ≠ some index) := by
  refine ⟨?_, ?_, ?_, ?_, ?_⟩
  · intro m f hopcode hbyte
    exact step_eq_executeIndexed hopcode hmode hbyte
  · intro m address
    exact m.executeIndexed_dec address i index offset n
  · intro step r
    exact IndexForm.address_eq hindex hoffset r
  · intro hlast hown
    exact not_growsLast hi hmode hindex hown hoffset hn hlast
  · intro hne
    exact growsLast hindex (Instruction.takesAddress_of_indexed hi hmode).1 hne offset n

/-- Adding a byte of memory to `A`, with an index that grows by one. -/
theorem step_indexed_add :
    GrowsLast ⟨.arithmetic .add .a, .indexed, 0x3A, 1⟩ .x (some .b) 1 ∧
      (⟨.arithmetic .add .a, .indexed, 0x3A, 1⟩ : Instruction) ∈ Instruction.table := by
  have hi : (⟨.arithmetic .add .a, .indexed, 0x3A, 1⟩ : Instruction) ∈ Instruction.table := by
    decide +kernel
  have hindex : IndexForm.isIndex .x := rfl
  have hoffset : ∀ r, some Register.b = some r → IndexForm.isOffset r := by
    rintro r ⟨⟩
    rfl
  have hn : IndexForm.isAmount 1 := rfl
  exact ⟨(step_indexed hi rfl hindex hoffset hn).2.2.2.mpr nofun, hi⟩

/-- Storing `X` through `,X+` at an address stores the address and one. -/
theorem stores_grown_index :
    let m : Machine := { registers := { x := 16 }, bus := ({} : Bus).pokeAll 0 [0x32, 0x28] }
    Instruction.decode m.fetch.1 = some ⟨.store .x, .indexed, 0x32, 1⟩ ∧
      IndexForm.decode m.fetch.2.fetch.1 = .ok { index := .x, step := .inc 1 } ∧
      m.step.2.bus.ramAt 16 = 17 ∧
      ((m.fetch.2.fetch.2.executeIndexed 0 ⟨.store .x, .indexed, 0x32, 1⟩
        { index := .x }).2.increment .x 1).bus.ramAt 16 = 16 := by
  decide +kernel

end Machine

end B33
