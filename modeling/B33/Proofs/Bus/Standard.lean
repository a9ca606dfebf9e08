import B33.Proofs.Bus.Mapped

/-!
# The standard devices

Two screens, the sound and the keyboard lie over parts of memory, and every write leaves them there.
All addresses but three keep their bytes. The three are the sound's, the one where the keyboard
counts its keys, and the one where it hands them out.
-/
namespace B33.Bus

/-- The standard devices, with what they keep. -/
def standardDevices (first second : Array UInt8) (pending : Option UInt8) : List Mapping :=
  [{ base := screen1Base, device := .framebuffer "screen1" first },
    { base := screen2Base, device := .framebuffer "screen2" second },
    { base := soundBase, device := .sound pending },
    { base := keyboardBase, device := .keyboard }]

/-- A bus with the standard devices, whatever they, memory and the keyboard hold. -/
def IsStandard (b : Bus) : Prop :=
  ∃ first second pending, first.size = Device.screenSize ∧ second.size = Device.screenSize ∧
    b.devices = standardDevices first second pending

/-- The address where the keyboard hands out its keys. -/
def keyAddress : UInt16 := 0xFFFF

/-- An address that is no cell of the sound or of the keyboard. -/
def IsPlain (address : UInt16) : Prop :=
  address ≠ soundBase ∧ address ≠ keyboardBase ∧ address ≠ keyAddress

theorem isStandard_standard : standard.IsStandard :=
  ⟨_, _, none, Array.size_replicate, Array.size_replicate, rfl⟩

variable {b b' : Bus}

theorem IsStandard.of_devices (h : b.IsStandard) (hd : b'.devices = b.devices) :
    b'.IsStandard := by
  obtain ⟨first, second, pending, h₁, h₂, h₃⟩ := h
  exact ⟨first, second, pending, h₁, h₂, hd.trans h₃⟩

theorem IsStandard.poke (h : b.IsStandard) (address : UInt16) (value : UInt8) :
    (b.poke address value).IsStandard := by
  obtain ⟨first, second, pending, h₁, h₂, h₃⟩ := h
  have hd := b.devices_poke_eq address value
  rw [h₃] at hd
  simp only [standardDevices, pokeMapped] at hd
  split_ifs at hd
  · exact ⟨_, second, pending, Array.size_setIfInBounds.trans h₁, h₂, hd⟩
  · exact ⟨first, _, pending, h₁, Array.size_setIfInBounds.trans h₂, hd⟩
  · cases pending with
    | none => exact ⟨first, second, some value, h₁, h₂, hd⟩
    | some note => exact ⟨first, second, none, h₁, h₂, hd⟩
  · exact ⟨first, second, pending, h₁, h₂, hd⟩
  · exact ⟨first, second, pending, h₁, h₂, hd⟩

/-- Which device answers for an address. -/
inductive Answers (b : Bus) (address : UInt16) : Prop
  | memory : IsPlain address → b.find? address = none → Answers b address
  | screen (m : Mapping) : IsPlain address → m.device.isFramebuffer = true →
      b.find? address = some m → Answers b address
  | sound (pending : Option UInt8) : address = soundBase →
      b.find? address = some { base := soundBase, device := .sound pending } → Answers b address
  | keyboard : address = keyboardBase ∨ address = keyAddress →
      b.find? address = some { base := keyboardBase, device := .keyboard } → Answers b address

theorem IsStandard.answers (h : b.IsStandard) (address : UInt16) : b.Answers address := by
  obtain ⟨first, second, pending, h₁, h₂, h₃⟩ := h
  have hlt := address.toNat_lt
  have hplain : IsPlain address ↔ address.toNat ≠ 0xEFF0 ∧ address.toNat ≠ 0xFFFE ∧
      address.toNat ≠ 0xFFFF := by
    rw [IsPlain, ne_eq, ne_eq, ne_eq, ← UInt16.toNat_inj, ← UInt16.toNat_inj, ← UInt16.toNat_inj]
    rfl
  have hfind : b.find? address = (standardDevices first second pending).find?
      (·.contains address) := by
    rw [find?, h₃]
  simp only [standardDevices, List.find?_cons, List.find?_nil] at hfind
  split at hfind
  · next hc =>
    obtain ⟨h₄, h₅⟩ := Mapping.contains_iff.mp hc
    simp only [Device.size, h₁] at h₄ h₅
    refine .screen _ (hplain.mpr ?_) rfl hfind
    simp only [screen1Base, Device.screenSize, UInt16.reduceToNat] at h₄ h₅
    omega
  · split at hfind
    · next hc =>
      obtain ⟨h₄, h₅⟩ := Mapping.contains_iff.mp hc
      simp only [Device.size, h₂] at h₄ h₅
      refine .screen _ (hplain.mpr ?_) rfl hfind
      simp only [screen2Base, Device.screenSize, UInt16.reduceToNat] at h₄ h₅
      omega
    · split at hfind
      · next hc =>
        obtain ⟨h₄, h₅⟩ := Mapping.contains_iff.mp hc
        simp only [Device.size] at h₄ h₅
        refine .sound pending (UInt16.toNat_inj.mp ?_) hfind
        omega
      · next hsound =>
        split at hfind
        · next hc =>
          obtain ⟨h₄, h₅⟩ := Mapping.contains_iff.mp hc
          refine .keyboard ?_ hfind
          rw [← UInt16.toNat_inj, ← UInt16.toNat_inj]
          simp only [keyboardBase, keyAddress, Device.size, UInt16.reduceToNat] at h₄ h₅ ⊢
          omega
        · next hkeyboard =>
          refine .memory (hplain.mpr ?_) hfind
          rw [← Bool.not_eq_true, Mapping.contains_iff] at hsound hkeyboard
          simp only [soundBase, keyboardBase, Device.size, UInt16.reduceToNat] at hsound hkeyboard
          omega

/-- A plain address keeps its byte. -/
theorem IsStandard.keeps (h : b.IsStandard) {address : UInt16} (hp : IsPlain address) :
    b.Keeps address := by
  intro m hm
  cases h.answers address with
  | memory _ hn =>
      rw [hn] at hm
      cases hm
  | screen n _ hn hfind =>
      rw [hfind] at hm
      cases hm
      exact hn
  | sound _ ha => exact (hp.1 ha).elim
  | keyboard ha => exact (ha.elim hp.2.1 hp.2.2).elim

/-- What a read finds at an address outside the keyboard does not depend on its keys. -/
theorem IsStandard.inspect_keys (h : b.IsStandard) {address : UInt16}
    (hcount : address ≠ keyboardBase) (hkey : address ≠ keyAddress) (keys : List UInt8) :
    ({ b with keys } : Bus).inspect address = b.inspect address := by
  cases h.answers address with
  | memory hp | screen m hp => exact inspect_of_keys (h.keeps hp) keys
  | sound pending _ hfind =>
      have hk : ({ b with keys } : Bus).find? address = _ := hfind
      rw [inspect_of_find? hk, inspect_of_find? hfind]
      rfl
  | keyboard ha => exact (ha.elim hcount hkey).elim

/-- A read answers with what is there, and takes a key at one address only. -/
theorem IsStandard.peek_eq (h : b.IsStandard) (address : UInt16) :
    b.peek address =
      (b.inspect address, if address = keyAddress then { b with keys := b.keys.tail } else b) := by
  cases h.answers address with
  | memory hp | screen m hp => rw [peek_of_keeps (h.keeps hp), if_neg hp.2.2]
  | sound pending ha hfind =>
      refine Prod.ext (b.peek_fst address) ?_
      rw [peek, hfind, if_neg (by rw [ha]; decide)]
      rfl
  | keyboard ha hfind =>
      refine Prod.ext (b.peek_fst address) ?_
      rw [peek, hfind]
      rcases ha with rfl | rfl
      · rfl
      · rfl

/-- Zero at the address of the count drops the keys, and no other write changes them. -/
theorem IsStandard.keys_poke (h : b.IsStandard) (address : UInt16) (value : UInt8) :
    (b.poke address value).keys =
      if address = keyboardBase ∧ value = 0 then [] else b.keys := by
  cases h.answers address with
  | memory hp | screen m hp =>
      rw [(keys_tones_poke_of_keeps (h.keeps hp) value).1, if_neg fun h => hp.2.1 h.1]
  | sound pending ha hfind =>
      rw [Bus.poke, hfind, if_neg (by rw [ha]; exact fun h => absurd h.1 (by decide))]
      cases pending <;> rfl
  | keyboard ha hfind =>
      rw [Bus.poke, hfind]
      rcases ha with rfl | rfl
      · by_cases hv : value = 0
        · rw [if_pos ⟨rfl, hv⟩, hv]
          rfl
        · rw [if_neg fun h => hv h.2]
          have hsignal : Device.keyboard.signal?
              (Mapping.offset { base := keyboardBase, device := .keyboard } keyboardBase) value =
                none := if_neg fun h => hv h.2
          dsimp only
          rw [hsignal]
          rfl
      · rfl

/-- Only a write to the sound's address reaches the sound. -/
theorem IsStandard.sound_poke (h : b.IsStandard) {address : UInt16} (ha : address ≠ soundBase)
    (value : UInt8) :
    (b.poke address value).find? soundBase = b.find? soundBase ∧
      (b.poke address value).tones = b.tones := by
  constructor
  · rcases b.find?_poke_cases address soundBase value with hsame | ⟨m, haddress, hsound, -⟩
    · exact hsame
    · -- The sound would have to answer for both addresses, but it has only one.
      have hcontains := Mapping.contains_iff.mp (contains_of_find? haddress)
      cases h.answers soundBase with
      | memory hp | screen m hp => exact (hp.1 rfl).elim
      | keyboard h => exact absurd h (by decide)
      | sound pending _ hfind =>
          rw [hfind] at hsound
          cases hsound
          simp only [Device.size] at hcontains
          exact (ha (UInt16.toNat_inj.mp (by omega))).elim
  · cases h.answers address with
    | memory hp | screen m hp => exact (keys_tones_poke_of_keeps (h.keeps hp) value).2
    | sound _ h => exact (ha h).elim
    | keyboard _ hfind =>
        rw [Bus.poke, hfind]
        show (obey _ (if _ then some .dropKeys else none)).tones = b.tones
        split <;> rfl

end B33.Bus
