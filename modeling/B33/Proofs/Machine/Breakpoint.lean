import B33.Breakpoints
import B33.Proofs.Machine.Frame

/-!
# Breakpoints and what is stored

The instruction at the program counter writes nothing, a byte, or the two bytes of a word at
neighbouring addresses. A step tells one address that it stored to, the one where the first of these
bytes goes, and the breakpoints are asked about that address and about the program counter.
-/
namespace B33

/-- A breakpoint is met at the next instruction, or else at the address stored to. -/
theorem Breakpoints.check_eq_some_iff {bs : Breakpoints} {next : UInt16} {store : Option UInt16}
    {hit : Breakpoint} :
    bs.check next store = some hit ↔
      (next ∈ bs.execution ∧ hit = ⟨.execution, next⟩) ∨
      (next ∉ bs.execution ∧ ∃ w, store = some w ∧ w ∈ bs.store ∧ hit = ⟨.store, w⟩) := by
  unfold check
  by_cases hnext : next ∈ bs.execution
  · rw [if_pos (List.contains_iff_mem.mpr hnext)]
    simp [hnext, eq_comm]
  · rw [if_neg (by rwa [List.contains_iff_mem])]
    simp [hnext, Option.map_eq_some_iff, Option.filter_eq_some_iff, and_assoc, eq_comm (a := hit)]

/-- The addresses of what an instruction writes are those of its register from its operand on. -/
theorem Mnemonic.map_fst_writes (m : Mnemonic) (address : UInt16) (file : RegisterFile) :
    (m.writes address file).map Prod.fst =
      (m.stored?.map fun r => (Width.ofRegister r).addresses address).getD [] := by
  unfold writes
  cases m.stored? with
  | none => rfl
  | some r => cases hwidth : Width.ofRegister r <;> simp [hwidth, Width.parts, Width.addresses]

namespace Machine

/-- The addresses that the instruction at the program counter reads through its operand. -/
def loaded (m : Machine) : List UInt16 :=
  match m.prepare with
  | (.ok p, _) => p.reads
  | (.error _, _) => []

/-- What the instruction at the program counter writes, and where. -/
def written (m : Machine) : List (UInt16 × UInt8) :=
  match m.prepare with
  | (.ok p, read) => p.instruction.mnemonic.writes p.argument.effectiveAddress read.registers
  | (.error _, _) => []

section
variable {m read after : Machine} {p : Prepared} {s : Step}

theorem written_eq (h : m.prepare = (.ok p, read)) :
    m.written = p.instruction.mnemonic.writes p.argument.effectiveAddress read.registers := by
  unfold written
  rw [h]

/-- What is written is all that a step does to the bus once it has read. -/
theorem bus_step (h : m.step = (.ok s, after)) :
    after.bus = (m.prepare.2.bus.readAll m.loaded).writeAll m.written := by
  obtain ⟨p, read, hprepare, -, rfl, rfl⟩ := exists_of_step_eq_ok h
  rw [bus_perform, written_eq hprepare]
  unfold loaded
  rw [hprepare]

/-- The address that a step tells is the first that it writes to. -/
theorem store_eq_head? (h : m.step = (.ok s, after)) :
    s.store = (m.written.map Prod.fst).head? := by
  obtain ⟨p, read, hprepare, -, rfl, rfl⟩ := exists_of_step_eq_ok h
  rw [written_eq hprepare, Mnemonic.map_fst_writes]
  unfold Prepared.outcome Mnemonic.stored?
  cases p.instruction.mnemonic with
  | store r => cases hwidth : Width.ofRegister r <;> simp [hwidth, Width.addresses]
  | _ => rfl

/-- A store breakpoint is met where an instruction begins to store, and a byte that follows the
first one meets none: the answer depends on the program counter and the first address written. -/
theorem check_step (h : m.step = (.ok s, after)) (bs : Breakpoints) :
    after.bus = (m.prepare.2.bus.readAll m.loaded).writeAll m.written ∧
    (∃ p read, m.prepare = (.ok p, read) ∧ s.instruction = p.instruction ∧
      m.written =
        p.instruction.mnemonic.writes p.argument.effectiveAddress read.registers ∧
      m.written.map Prod.fst = (p.instruction.mnemonic.stored?.map fun r =>
        (Width.ofRegister r).addresses p.argument.effectiveAddress).getD []) ∧
    (∀ w ∈ bs.store, (m.written.map Prod.fst).head? = some w →
      (bs.check after.registers.pc s.store).isSome) ∧
    ∀ hit, bs.check after.registers.pc s.store = some hit ↔
      (after.registers.pc ∈ bs.execution ∧ hit = ⟨.execution, after.registers.pc⟩) ∨
      (after.registers.pc ∉ bs.execution ∧ ∃ w ∈ bs.store,
        (m.written.map Prod.fst).head? = some w ∧ hit = ⟨.store, w⟩) := by
  have hwhen (hit : Breakpoint) : bs.check after.registers.pc s.store = some hit ↔
      (after.registers.pc ∈ bs.execution ∧ hit = ⟨.execution, after.registers.pc⟩) ∨
      (after.registers.pc ∉ bs.execution ∧ ∃ w ∈ bs.store,
        (m.written.map Prod.fst).head? = some w ∧ hit = ⟨.store, w⟩) := by
    rw [Breakpoints.check_eq_some_iff, store_eq_head? h]
    simp only [and_left_comm]
  refine ⟨bus_step h, ?_, fun w hw hfirst => ?_, hwhen⟩
  · obtain ⟨p, read, hprepare, -, rfl, -⟩ := exists_of_step_eq_ok h
    exact ⟨p, read, hprepare, rfl, written_eq hprepare,
      by rw [written_eq hprepare, Mnemonic.map_fst_writes]⟩
  · rw [Option.isSome_iff_exists]
    by_cases hnext : after.registers.pc ∈ bs.execution
    · exact ⟨_, (hwhen _).mpr (.inl ⟨hnext, rfl⟩)⟩
    · exact ⟨_, (hwhen _).mpr (.inr ⟨hnext, w, hw, hfirst, rfl⟩)⟩

/-- Storing `Y` through `,--X` onwards from the last byte of memory, where a breakpoint is armed. -/
theorem check_store_at_last_byte :
    let m : Machine := { registers := { x := 1, y := 0x1234, pc := 16 }
                         bus := ({} : Bus).pokeAll 16 [0x36, 0xC8] }
    let bs : Breakpoints := { store := [0xFFFF] }
    ∃ s after, m.step = (.ok s, after) ∧ m.written = [(0xFFFF, 0x34), (0, 0x12)] ∧
      (bs.check after.registers.pc s.store).isSome := by
  intro m bs
  have hrun : m.step.1.toOption.isSome ∧ m.written = [(0xFFFF, 0x34), (0, 0x12)] := by
    decide +kernel
  obtain ⟨hok, hwritten⟩ := hrun
  generalize hstep : m.step = result at hok
  obtain ⟨outcome, after⟩ := result
  obtain ⟨s, hs⟩ := Option.isSome_iff_exists.mp hok
  cases toOption_eq_some_iff.mp hs
  exact ⟨s, after, rfl, hwritten,
    (check_step hstep bs).2.2.1 0xFFFF (List.mem_singleton.mpr rfl) (by rw [hwritten]; rfl)⟩

/-- Storing `X` at an address writes to the next address too, and a breakpoint armed there is not
met. -/
theorem passes_second_byte :
    let m : Machine := { bus := ({} : Bus).pokeAll 0 [0x31, 0x00, 0x20] }
    let bs : Breakpoints := { store := [0x2001] }
    ∃ s after, m.step = (.ok s, after) ∧ 0x2001 ∈ m.written.map Prod.fst ∧
      bs.check after.registers.pc s.store = none := by
  intro m bs
  have hrun : m.step.1.toOption.map (fun s => bs.check m.step.2.registers.pc s.store) = some none ∧
      0x2001 ∈ m.written.map Prod.fst := by decide +kernel
  obtain ⟨hcheck, hwritten⟩ := hrun
  generalize hstep : m.step = result at hcheck
  obtain ⟨outcome, after⟩ := result
  obtain ⟨s, hs, hnone⟩ := Option.map_eq_some_iff.mp hcheck
  cases toOption_eq_some_iff.mp hs
  exact ⟨s, after, rfl, hwritten, hnone⟩

end
end Machine

end B33
