import B33.Proofs.Bus

/-!
# Memory with devices

A byte that is written goes to the first device that answers for its address, or to memory if none
does. Memory and framebuffers keep it until the same address is written again. Nothing that the host
or the machine does with keys and tones touches them.
-/
namespace B33

/-- Whether a device only keeps what is written to it. -/
def Device.isFramebuffer : Device → Bool
  | framebuffer .. => true
  | _ => false

@[simp] theorem Device.size_poke (d : Device) (offset : UInt16) (value : UInt8) :
    (d.poke offset value).size = d.size := by
  cases d with
  | framebuffer name cells => exact Array.size_setIfInBounds
  | sound pending => cases pending <;> rfl
  | keyboard => rfl

/-- A framebuffer shows what was last written to each of its places. -/
theorem Device.inspect_poke {d : Device} (hd : d.isFramebuffer = true) {offset other : UInt16}
    (ho : other.toNat < d.size) (value : UInt8) (keys : List UInt8) :
    (d.poke offset value).inspect keys other =
      if offset = other then value else d.inspect keys other := by
  cases d with
  | sound | keyboard => cases hd
  | framebuffer name cells =>
      have hlt : other.toNat < cells.size := ho
      show (cells.setIfInBounds offset.toNat value).getD other.toNat 0 =
        if offset = other then value else cells.getD other.toNat 0
      simp [Array.getD, hlt, Array.getElem_setIfInBounds, UInt16.toNat_inj]

/-- A framebuffer shows the same whatever keys wait. -/
theorem Device.inspect_keys {d : Device} (hd : d.isFramebuffer = true) (keys keys' : List UInt8)
    (offset : UInt16) : d.inspect keys offset = d.inspect keys' offset := by
  cases d with
  | framebuffer => rfl
  | sound | keyboard => cases hd

theorem Device.takesKey_of_isFramebuffer {d : Device} (hd : d.isFramebuffer = true)
    (offset : UInt16) : d.takesKey offset = false := by
  cases d with
  | framebuffer => rfl
  | sound | keyboard => cases hd

theorem Device.signal?_of_isFramebuffer {d : Device} (hd : d.isFramebuffer = true)
    (offset : UInt16) (value : UInt8) : d.signal? offset value = none := by
  cases d with
  | framebuffer => rfl
  | sound | keyboard => cases hd

namespace Mapping

/-- The mapping after a byte is written to one of its addresses. -/
def written (m : Mapping) (address : UInt16) (value : UInt8) : Mapping :=
  { m with device := m.device.poke (m.offset address) value }

@[simp] theorem contains_written (m : Mapping) (address : UInt16) (value : UInt8) :
    (m.written address value).contains = m.contains := by
  funext other
  rw [contains, contains, finish, finish, written, Device.size_poke]

theorem contains_iff {m : Mapping} {address : UInt16} :
    m.contains address = true ↔
      m.base.toNat ≤ address.toNat ∧ address.toNat < m.base.toNat + m.device.size := by
  rw [contains, finish, Bool.and_eq_true, decide_eq_true_eq, decide_eq_true_eq,
    UInt16.le_iff_toNat_le]

theorem toNat_offset {m : Mapping} {address : UInt16} (h : m.contains address = true) :
    (m.offset address).toNat = address.toNat - m.base.toNat :=
  UInt16.toNat_sub_of_le _ _ (UInt16.le_iff_toNat_le.mpr (contains_iff.mp h).1)

/-- Different addresses of one device are different places in it. -/
theorem offset_ne {m : Mapping} {address other : UInt16} (h : m.contains address = true)
    (ho : m.contains other = true) (hne : address ≠ other) : m.offset address ≠ m.offset other := by
  intro heq
  have hoffset := congrArg UInt16.toNat heq
  rw [toNat_offset h, toNat_offset ho] at hoffset
  have := (contains_iff.mp h).1
  have := (contains_iff.mp ho).1
  exact hne (UInt16.toNat_inj.mp (by omega))

theorem inspect_written {m : Mapping} (hm : m.device.isFramebuffer = true)
    {address other : UInt16} (h : m.contains address = true) (ho : m.contains other = true)
    (value : UInt8) (keys : List UInt8) :
    (m.written address value).device.inspect keys ((m.written address value).offset other) =
      if address = other then value else m.device.inspect keys (m.offset other) := by
  have hlt : (m.offset other).toNat < m.device.size := by
    have := contains_iff.mp ho
    rw [toNat_offset ho]
    omega
  show (m.device.poke (m.offset address) value).inspect keys (m.offset other) = _
  rw [Device.inspect_poke hm hlt]
  split_ifs with hoffset heq heq
  · rfl
  · exact (offset_ne h ho heq hoffset).elim
  · exact (hoffset (heq ▸ rfl)).elim
  · rfl

end Mapping

namespace Bus

section Search
variable {address : UInt16} {value : UInt8} {ms : List Mapping}

theorem pokeMapped_of_contains {m : Mapping} (h : m.contains address = true) :
    pokeMapped address value (m :: ms) = m.written address value :: ms := if_pos h

theorem pokeMapped_of_not_contains {m : Mapping} (h : m.contains address = false) :
    pokeMapped address value (m :: ms) = m :: pokeMapped address value ms :=
  if_neg (Bool.eq_false_iff.mp h)

/-- Where no device answers, walking through them changes none. -/
theorem pokeMapped_of_find?_none (h : ms.find? (·.contains address) = none) :
    pokeMapped address value ms = ms := by
  induction ms with
  | nil => rfl
  | cons m ms ih =>
      cases hm : m.contains address with
      | true =>
          rw [List.find?_cons, hm] at h
          cases h
      | false =>
          rw [List.find?_cons, hm] at h
          rw [pokeMapped_of_not_contains hm, ih h]

/-- The device that is written to is still the one that answers for the address. -/
theorem find?_pokeMapped_self :
    (pokeMapped address value ms).find? (·.contains address) =
      (ms.find? (·.contains address)).map (·.written address value) := by
  induction ms with
  | nil => rfl
  | cons m ms ih =>
      cases h : m.contains address with
      | true =>
          simp only [pokeMapped_of_contains h, List.find?_cons, Mapping.contains_written, h,
            Option.map_some]
      | false => simp only [pokeMapped_of_not_contains h, List.find?_cons, h, ih]

/-- For any address the same device answers as before a write, and it is as before unless it is the
one that was written to. -/
theorem find?_pokeMapped (other : UInt16) :
    (pokeMapped address value ms).find? (·.contains other) = ms.find? (·.contains other) ∨
      ∃ m, ms.find? (·.contains address) = some m ∧ ms.find? (·.contains other) = some m ∧
        (pokeMapped address value ms).find? (·.contains other) =
          some (m.written address value) := by
  induction ms with
  | nil => exact .inl rfl
  | cons m ms ih =>
      cases h : m.contains address with
      | true =>
          simp only [pokeMapped_of_contains h, List.find?_cons, Mapping.contains_written, h]
          cases ho : m.contains other with
          | true => exact .inr ⟨m, rfl, rfl, rfl⟩
          | false => exact .inl rfl
      | false =>
          simp only [pokeMapped_of_not_contains h, List.find?_cons, h]
          cases ho : m.contains other with
          | true => exact .inl rfl
          | false => exact ih

end Search

/-- Whether an address is one of memory or of a framebuffer. -/
def Keeps (b : Bus) (address : UInt16) : Prop :=
  ∀ m, b.find? address = some m → m.device.isFramebuffer = true

theorem contains_of_find? {b : Bus} {address : UInt16} {m : Mapping}
    (h : b.find? address = some m) : m.contains address = true := by
  have hp := @List.find?_some Mapping (fun m => m.contains address) m b.devices h
  exact hp

@[simp] theorem devices_obey (b : Bus) (signal : Option Signal) :
    (b.obey signal).devices = b.devices := by
  rcases signal with _ | ⟨_ | _⟩ <;> rfl

@[simp] theorem ram_obey (b : Bus) (signal : Option Signal) : (b.obey signal).ram = b.ram := by
  rcases signal with _ | ⟨_ | _⟩ <;> rfl

theorem devices_poke_eq (b : Bus) (address : UInt16) (value : UInt8) :
    (b.poke address value).devices = pokeMapped address value b.devices := by
  unfold poke
  cases hm : b.find? address with
  | none => exact (pokeMapped_of_find?_none hm).symm
  | some m => exact devices_obey _ _

theorem ramAt_poke_of_ne (b : Bus) {address other : UInt16} (h : address ≠ other) (value : UInt8) :
    (b.poke address value).ramAt other = b.ramAt other := by
  cases hm : b.find? address with
  | none => rw [ramAt_poke_of_find?_none hm, if_neg h]
  | some m =>
      rw [poke, hm, ramAt, ram_obey]
      rfl

/-- What a write to another address finds at an address. -/
theorem find?_poke_cases (b : Bus) (address other : UInt16) (value : UInt8) :
    (b.poke address value).find? other = b.find? other ∨
      ∃ m, b.find? address = some m ∧ b.find? other = some m ∧
        (b.poke address value).find? other = some (m.written address value) := by
  rw [find?, find?, find?, devices_poke_eq]
  exact find?_pokeMapped other

theorem find?_poke_self (b : Bus) (address : UInt16) (value : UInt8) :
    (b.poke address value).find? address = (b.find? address).map (·.written address value) := by
  rw [find?, find?, devices_poke_eq]
  exact find?_pokeMapped_self

theorem inspect_of_find? {b : Bus} {address : UInt16} {m : Mapping}
    (h : b.find? address = some m) :
    b.inspect address = m.device.inspect b.keys (m.offset address) := by
  rw [inspect, h]

theorem inspect_of_find?_none {b : Bus} {address : UInt16} (h : b.find? address = none) :
    b.inspect address = b.ramAt address := by
  rw [inspect, h]

/-- A byte stays where it was written until something else is written there. -/
theorem inspect_poke {b : Bus} {other : UInt16} (h : b.Keeps other) (address : UInt16)
    (value : UInt8) :
    (b.poke address value).inspect other = if address = other then value else b.inspect other := by
  split_ifs with heq
  · subst heq
    have hself := b.find?_poke_self address value
    cases hm : b.find? address with
    | none =>
        rw [hm] at hself
        rw [inspect_of_find?_none hself, ramAt_poke_of_find?_none hm, if_pos rfl]
    | some m =>
        rw [hm] at hself
        rw [inspect_of_find? hself, Mapping.inspect_written (h m hm) (contains_of_find? hm)
          (contains_of_find? hm), if_pos rfl]
  · rcases b.find?_poke_cases address other value with hsame | ⟨m, haddress, hother, hwritten⟩
    · cases hm : b.find? other with
      | none =>
          rw [hm] at hsame
          rw [inspect_of_find?_none hsame, inspect_of_find?_none hm, ramAt_poke_of_ne b heq]
      | some m =>
          rw [hm] at hsame
          rw [inspect_of_find? hsame, inspect_of_find? hm]
          exact Device.inspect_keys (h m hm) _ _ _
    · rw [inspect_of_find? hwritten, inspect_of_find? hother,
        Mapping.inspect_written (h m hother) (contains_of_find? haddress)
          (contains_of_find? hother), if_neg heq]
      exact Device.inspect_keys (h m hother) _ _ _

/-- Taking keys changes nothing at an address that keeps its byte. -/
theorem inspect_of_keys {b : Bus} {address : UInt16} (h : b.Keeps address) (keys : List UInt8) :
    ({ b with keys } : Bus).inspect address = b.inspect address := by
  cases hm : b.find? address with
  | none => exact (inspect_of_find?_none hm).symm ▸ inspect_of_find?_none hm
  | some m =>
      have hk : ({ b with keys } : Bus).find? address = some m := hm
      rw [inspect_of_find? hk, inspect_of_find? hm]
      exact Device.inspect_keys (h m hm) _ _ _

/-- Reading with and without a side effect gives the same byte. -/
theorem peek_fst (b : Bus) (address : UInt16) : (b.peek address).1 = b.inspect address := by
  unfold peek inspect
  split <;> rfl

/-- Reading a byte that is kept has no side effect. -/
theorem peek_of_keeps {b : Bus} {address : UInt16} (h : b.Keeps address) :
    b.peek address = (b.inspect address, b) := by
  refine Prod.ext (b.peek_fst address) ?_
  unfold peek
  cases hm : b.find? address with
  | none => rfl
  | some m =>
      have htakes := Device.takesKey_of_isFramebuffer (h m hm) (m.offset address)
      dsimp only
      rw [htakes]
      rfl

/-- Where bytes are kept a write touches neither keys nor tones. -/
theorem keys_tones_poke_of_keeps {b : Bus} {address : UInt16} (h : b.Keeps address)
    (value : UInt8) :
    (b.poke address value).keys = b.keys ∧ (b.poke address value).tones = b.tones := by
  unfold poke
  cases hm : b.find? address with
  | none => exact ⟨rfl, rfl⟩
  | some m =>
      have hsignal := Device.signal?_of_isFramebuffer (h m hm) (m.offset address) value
      dsimp only
      rw [hsignal]
      exact ⟨rfl, rfl⟩

end Bus

end B33
