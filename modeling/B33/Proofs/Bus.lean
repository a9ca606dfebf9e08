import B33.Bus
import B33.Proofs.Register

/-!
# Memory without devices

On a bus with no devices a byte stays where it was written until something else is written there, so
a program that was loaded lies in memory from its origin on.
-/
namespace B33.Bus

variable {b : Bus}

/-- Memory has these bytes from an address on. -/
def Holds (b : Bus) : UInt16 → List UInt8 → Prop
  | _, [] => True
  | address, value :: values => b.ramAt address = value ∧ b.Holds (address + 1) values

theorem holds_append (address : UInt16) (xs ys : List UInt8) :
    b.Holds address (xs ++ ys) ↔
      b.Holds address xs ∧ b.Holds (address + UInt16.ofNat xs.length) ys := by
  induction xs generalizing address with
  | nil => simp [Holds]
  | cons x xs ih =>
      simp only [List.cons_append, Holds, ih, and_assoc, add_ofNat_succ, List.length_cons]

theorem peek_of_no_devices (h : b.devices = []) (address : UInt16) :
    b.peek address = (b.ramAt address, b) := by
  simp [peek, find?, h]

theorem poke_of_no_devices (h : b.devices = []) (address : UInt16) (value : UInt8) :
    b.poke address value = { b with ram := b.ram.set address.toNat value address.toNat_lt } := by
  simp [poke, find?, h]

/-- What is written where no device answers is in memory. -/
theorem ramAt_poke_of_find?_none {address : UInt16} (h : b.find? address = none) (value : UInt8)
    (other : UInt16) :
    (b.poke address value).ramAt other = if address = other then value else b.ramAt other := by
  have ho : other.toNat < 65536 := other.toNat_lt
  unfold poke
  rw [h]
  show (b.ram.set address.toNat value address.toNat_lt)[other.toNat] =
    if address = other then value else b.ram[other.toNat]
  simp only [Vector.getElem_set, UInt16.toNat_inj]

theorem ramAt_poke (h : b.devices = []) (address : UInt16) (value : UInt8) (other : UInt16) :
    (b.poke address value).ramAt other = if address = other then value else b.ramAt other :=
  ramAt_poke_of_find?_none (by simp [find?, h]) value other

theorem devices_poke (h : b.devices = []) (address : UInt16) (value : UInt8) :
    (b.poke address value).devices = [] := by
  rw [poke_of_no_devices h]
  exact h

theorem devices_pokeAll (h : b.devices = []) (address : UInt16) (values : List UInt8) :
    (b.pokeAll address values).devices = [] := by
  induction values generalizing b address with
  | nil => exact h
  | cons value values ih => exact ih (devices_poke h address value) (address + 1)

/-- Bytes that are written later are written to higher addresses. -/
theorem ramAt_pokeAll_of_lt (h : b.devices = []) {address other : UInt16} {values : List UInt8}
    (hend : address.toNat + values.length ≤ 0x10000) (ho : other < address) :
    (b.pokeAll address values).ramAt other = b.ramAt other := by
  induction values generalizing b address with
  | nil => rfl
  | cons value values ih =>
      rw [UInt16.lt_iff_toNat_lt] at ho
      rw [List.length_cons] at hend
      cases values with
      | nil =>
          rw [pokeAll, pokeAll, ramAt_poke h, if_neg]
          rintro rfl
          omega
      | cons value' values =>
          rw [List.length_cons] at hend
          have hnext : (address + 1).toNat = address.toNat + 1 := toNat_succ (by omega)
          rw [pokeAll, ih (devices_poke h _ _) (by rw [List.length_cons]; omega)
            (UInt16.lt_iff_toNat_lt.mpr (by omega)), ramAt_poke h, if_neg]
          rintro rfl
          omega

theorem holds_pokeAll (h : b.devices = []) {address : UInt16} {values : List UInt8}
    (hend : address.toNat + values.length ≤ 0x10000) :
    (b.pokeAll address values).Holds address values := by
  induction values generalizing b address with
  | nil => trivial
  | cons value values ih =>
      rw [List.length_cons] at hend
      cases values with
      | nil =>
          refine ⟨?_, trivial⟩
          rw [pokeAll, pokeAll, ramAt_poke h, if_pos rfl]
      | cons value' values =>
          rw [List.length_cons] at hend
          have hnext : (address + 1).toNat = address.toNat + 1 := toNat_succ (by omega)
          refine ⟨?_, ih (devices_poke h _ _) (by rw [List.length_cons]; omega)⟩
          rw [pokeAll, ramAt_pokeAll_of_lt (devices_poke h _ _) (by rw [List.length_cons]; omega)
            (UInt16.lt_iff_toNat_lt.mpr (by omega)), ramAt_poke h, if_pos rfl]

end B33.Bus
