import B33.Proofs.Bus.Action
import B33.Proofs.Bus.Backplane

/-!
# Attaching devices

A device is attached if its addresses end within memory and none of them is another device's. So the
devices of a bus are always apart, and an address has one device at most. Which device answers for
an address does then not depend on the order in which the devices were attached. All of that is true
of a backplane, and the bus is one, where keys and tones are what devices share.
-/
namespace B33

namespace Mapping

/-- Whether an address is one of a device's, which can lie behind the end of memory. -/
def Covers (m : Mapping) (address : Nat) : Prop := m.base.toNat ≤ address ∧ address < m.finish

/-- Whether two devices have no address in common. -/
def Apart (m n : Mapping) : Prop := ∀ address, m.Covers address → ¬n.Covers address

/-- The device with its addresses. They stay the same, as no device changes its size. -/
def slot (m : Mapping) : Slot Device := { base := m.base, finish := m.finish, device := m.device }

end Mapping

namespace Bus

/-- The bus after a call of `attach`. A call that is refused leaves it. -/
def afterAttach (b : Bus) (m : Mapping) : Bus :=
  match b.attach m.base m.device with
  | .ok b' => b'
  | .error _ => b

def afterAttachAll (b : Bus) (calls : List Mapping) : Bus := calls.foldl afterAttach b

/-- What a call of `attach` does. -/
structure Attaches (b : Bus) (m : Mapping) : Prop where
  accepted_iff : (∃ b', b.attach m.base m.device = .ok b') ↔
    m.finish ≤ 0x10000 ∧ ∀ n ∈ b.devices, m.Apart n
  accepted : ∀ b', b.attach m.base m.device = .ok b' →
    b.afterAttach m = b' ∧ b' = { b with devices := b.devices ++ [m] }
  refused : ∀ e, b.attach m.base m.device = .error e → b.afterAttach m = b

/-- The devices of a bus have addresses, which are all in memory and belong to no other device. -/
structure Separate (ms : List Mapping) : Prop where
  sized : ∀ m ∈ ms, 1 ≤ m.device.size
  inside : ∀ m ∈ ms, m.finish ≤ 0x10000
  apart : ms.Pairwise Mapping.Apart

/-- What the devices of a bus share. -/
structure Shared where
  keys : List UInt8
  tones : Array Tone

def Shared.obey (s : Shared) : Option Signal → Shared
  | some (.play t) => { s with tones := s.tones.push t }
  | some .dropKeys => { s with keys := [] }
  | none => s

instance : Attachable Device Shared where
  name := Device.name
  size := Device.size
  inspect s offset d := d.inspect s.keys offset
  peek s offset d :=
    (d.inspect s.keys offset, if d.takesKey offset then { s with keys := s.keys.tail } else s, d)
  poke s offset value d := (s.obey (d.signal? offset value), d.poke offset value)

def backplane (b : Bus) : Backplane Device Shared where
  ram := b.ram
  slots := b.devices.map Mapping.slot
  shared := { keys := b.keys, tones := b.tones }

/-- What the host does to the keys concerns the devices, and not where they are. -/
def Action.lifted : Action → Backplane.Action Shared
  | press key => .host fun s => { s with keys := s.keys ++ [key] }
  | typeText text => .host fun s => { s with keys := s.keys ++ text.toUTF8.data.toList.map keyOf }
  | clearKeys => .host fun s => { s with keys := [] }
  | read address bypass => .read address bypass
  | write address value => .write address value

section
variable (b : Bus)

theorem backplane_attach (base : UInt16) (device : Device) :
    b.backplane.attach base device = (b.attach base device).map backplane := by
  have hfind : b.backplane.slots.find? (Backplane.slotAt base device).meets =
      (b.devices.find? (Mapping.mk base device).meets).map Mapping.slot := List.find?_map ..
  unfold Backplane.attach Bus.attach
  dsimp only
  rw [hfind]
  by_cases hfits : 0x10000 < (Mapping.mk base device).finish
  · rw [if_pos hfits]
    exact if_pos hfits
  · rw [if_neg hfits]
    refine (if_neg hfits).trans ?_
    cases b.devices.find? (Mapping.mk base device).meets with
    | some other => rfl
    | none =>
        have hslots : b.devices.map Mapping.slot ++ [Backplane.slotAt base device] =
            (b.devices ++ [Mapping.mk base device]).map Mapping.slot := by
          rw [List.map_append]
          rfl
        exact congrArg (fun slots => Except.ok { b.backplane with slots }) hslots

theorem backplane_find? (address : UInt16) :
    b.backplane.find? address = (b.find? address).map Mapping.slot := List.find?_map ..

theorem backplane_inspect (address : UInt16) : b.backplane.inspect address = b.inspect address := by
  unfold Backplane.inspect Bus.inspect
  rw [backplane_find?]
  cases b.find? address with
  | none => rfl
  | some m => rfl

theorem backplane_peek (address : UInt16) :
    b.backplane.peek address = ((b.peek address).1, (b.peek address).2.backplane) := by
  have hplace := b.backplane_find? address
  unfold Backplane.peek Bus.peek
  rw [hplace]
  cases hm : b.find? address with
  | none => rfl
  | some m =>
      rw [hm] at hplace
      have hslots : Backplane.replaceAt address m.device b.backplane.slots = b.backplane.slots :=
        Backplane.replaceAt_of_find? hplace
      have hbus : ∀ taken : Bool, (if taken then { b with keys := b.keys.tail } else b).backplane =
          { b.backplane with shared :=
              if taken then { b.backplane.shared with keys := b.keys.tail }
              else b.backplane.shared } := by
        intro taken
        cases taken with
        | true => rfl
        | false => rfl
      dsimp only [Option.map_some, Attachable.peek]
      rw [hbus, show m.slot.device = m.device from rfl, hslots]
      rfl

theorem replaceAt_poke {ms : List Mapping} {m : Mapping} {address : UInt16} (value : UInt8)
    (h : ms.find? (·.contains address) = some m) :
    Backplane.replaceAt address (m.device.poke (m.offset address) value) (ms.map Mapping.slot) =
      (pokeMapped address value ms).map Mapping.slot := by
  induction ms with
  | nil => rfl
  | cons n ms ih =>
      rw [List.find?_cons] at h
      rw [List.map_cons, Backplane.replaceAt]
      cases hn : n.contains address with
      | true =>
          rw [hn] at h
          cases h
          have hfinish : (m.written address value).finish = m.finish := by
            rw [Mapping.finish, Mapping.finish, Mapping.written, Device.size_poke]
          rw [pokeMapped_of_contains hn, List.map_cons]
          refine (if_pos hn).trans ?_
          rw [Mapping.slot, Mapping.slot, hfinish]
          rfl
      | false =>
          rw [hn] at h
          rw [pokeMapped_of_not_contains hn, List.map_cons, ← ih h]
          exact if_neg (Bool.eq_false_iff.mp hn)

theorem backplane_obey (signal : Option Signal) :
    (b.obey signal).backplane = { b.backplane with shared := b.backplane.shared.obey signal } := by
  rcases signal with _ | ⟨_ | _⟩ <;> rfl

theorem backplane_poke (address : UInt16) (value : UInt8) :
    b.backplane.poke address value = (b.poke address value).backplane := by
  unfold Backplane.poke Bus.poke
  rw [backplane_find?]
  cases hm : b.find? address with
  | none => rfl
  | some m =>
      have hslots : Backplane.replaceAt address (m.device.poke (m.offset address) value)
          b.backplane.slots = (pokeMapped address value b.devices).map Mapping.slot :=
        replaceAt_poke value hm
      dsimp only
      rw [backplane_obey]
      exact congrArg (fun slots => { b.backplane with
        slots, shared := b.backplane.shared.obey (m.device.signal? (m.offset address) value) }) hslots

theorem backplane_action (a : Action) :
    a.lifted.after b.backplane = (a.after b).backplane ∧
      a.lifted.answer? b.backplane = a.answer? b := by
  cases a with
  | press | typeText | clearKeys => exact ⟨rfl, rfl⟩
  | write address value => exact ⟨b.backplane_poke address value, rfl⟩
  | read address bypass =>
      cases bypass with
      | true => exact ⟨rfl, congrArg (fun v => some (address, v)) (b.backplane_inspect address)⟩
      | false =>
          have hpeek := b.backplane_peek address
          exact ⟨congrArg Prod.snd hpeek, congrArg (fun p => some (address, Prod.fst p)) hpeek⟩

theorem backplane_actions (history : List Action) :
    b.backplane.afterActions (history.map Action.lifted) = (b.afterActions history).backplane ∧
      b.backplane.answers (history.map Action.lifted) = b.answers history := by
  induction history generalizing b with
  | nil => exact ⟨rfl, rfl⟩
  | cons a history ih =>
      obtain ⟨hafter, hanswer⟩ := b.backplane_action a
      obtain ⟨hlast, hanswers⟩ := ih (a.after b)
      rw [List.map_cons]
      constructor
      · rw [Backplane.afterActions, List.foldl_cons, hafter]
        exact hlast
      · rw [Backplane.answers, hafter, hanswer, hanswers]
        rfl

theorem backplane_afterAttach (m : Mapping) :
    b.backplane.afterAttach (m.base, m.device) = (b.afterAttach m).backplane := by
  unfold Backplane.afterAttach Bus.afterAttach
  rw [backplane_attach]
  cases b.attach m.base m.device with
  | ok b' => rfl
  | error e => rfl

theorem backplane_afterAttachAll (calls : List Mapping) :
    b.backplane.afterAttachAll (calls.map fun m => (m.base, m.device)) =
      (b.afterAttachAll calls).backplane := by
  induction calls generalizing b with
  | nil => rfl
  | cons m calls ih =>
      rw [List.map_cons, Backplane.afterAttachAll, List.foldl_cons, backplane_afterAttach]
      exact ih (b.afterAttach m)

end

theorem separate_iff {b : Bus} : Backplane.Separate b.backplane.slots ↔ Separate b.devices := by
  constructor
  · intro h
    constructor
    case sized =>
      intro m hm
      have hlt : m.base.toNat < m.base.toNat + m.device.size :=
        h.nonempty m.slot (List.mem_map_of_mem hm)
      omega
    case inside => exact fun m hm => h.inside m.slot (List.mem_map_of_mem hm)
    case apart =>
      have hapart := h.apart
      rw [backplane, List.pairwise_map] at hapart
      exact hapart
  · intro h
    constructor
    case nonempty =>
      refine List.forall_mem_map.mpr fun m hm => ?_
      have hsize := h.sized m hm
      show m.base.toNat < m.base.toNat + m.device.size
      omega
    case inside => exact List.forall_mem_map.mpr h.inside
    case apart =>
      rw [backplane, List.pairwise_map]
      exact h.apart

theorem hasRoom_iff {b : Bus} {m : Mapping} :
    b.backplane.HasRoom (m.base, m.device) ↔
      m.finish ≤ 0x10000 ∧ ∀ n ∈ b.devices, m.Apart n :=
  and_congr Iff.rfl List.forall_mem_map

theorem attaches {b : Bus} {m : Mapping} (hb : Separate b.devices) (hm : 1 ≤ m.device.size) :
    b.Attaches m := by
  have hplane := b.backplane_attach m.base m.device
  constructor
  case accepted_iff =>
    rw [← hasRoom_iff]
    constructor
    · rintro ⟨b', h⟩
      rw [h] at hplane
      exact ((Backplane.attach_eq_ok_iff_hasRoom (separate_iff.mpr hb) hm).mp hplane).1
    · intro hroom
      have hok := (Backplane.attach_eq_ok_iff_hasRoom (separate_iff.mpr hb) hm).mpr ⟨hroom, rfl⟩
      rw [hplane] at hok
      cases h : b.attach m.base m.device with
      | ok b' => exact ⟨b', rfl⟩
      | error e =>
          rw [h] at hok
          cases hok
  case accepted =>
    intro b' h
    rw [afterAttach, h]
    unfold attach at h
    dsimp only at h
    split at h
    · cases h
    · split at h
      · cases h
      · cases h
        exact ⟨rfl, rfl⟩
  case refused =>
    intro e h
    rw [afterAttach, h]

theorem Separate.afterAttachAll {b : Bus} (h : Separate b.devices) {calls : List Mapping}
    (hsize : ∀ m ∈ calls, 1 ≤ m.device.size) : Separate (b.afterAttachAll calls).devices := by
  rw [← separate_iff, ← backplane_afterAttachAll]
  refine (separate_iff.mpr h).afterAttachAll ?_
  rw [List.forall_mem_map]
  exact hsize

/-- Calls of `attach` in a row accept the devices that end within memory and meet no device accepted
before. So an address has at most one device, and devices that are apart can be attached in any
order: whatever is done to the bus then, what it answers is the same, and so are the keys that wait
and the tones that are played. -/
theorem attached_apart {b : Bus} (hb : b.devices = []) {calls : List Mapping}
    (hsize : ∀ m ∈ calls, 1 ≤ m.device.size) :
    Separate (b.afterAttachAll calls).devices ∧
    (∀ before m after, calls = before ++ m :: after → (b.afterAttachAll before).Attaches m) ∧
    (∀ address, ((b.afterAttachAll calls).devices.filter (·.contains address)).length ≤ 1) ∧
    (∀ calls', calls.Perm calls' → calls.Pairwise Mapping.Apart → ∀ history,
      (b.afterAttachAll calls).answers history = (b.afterAttachAll calls').answers history ∧
      ((b.afterAttachAll calls).afterActions history).keys =
        ((b.afterAttachAll calls').afterActions history).keys ∧
      ((b.afterAttachAll calls).afterActions history).tones =
        ((b.afterAttachAll calls').afterActions history).tones) := by
  have hnone : Separate b.devices := by
    rw [hb]
    exact ⟨by simp, by simp, List.Pairwise.nil⟩
  have hslots : b.backplane.slots = [] := by
    rw [backplane, hb]
    rfl
  have hcalls : ∀ c ∈ calls.map fun m => (m.base, m.device), 1 ≤ Attachable.size c.2 := by
    rw [List.forall_mem_map]
    exact hsize
  obtain ⟨-, -, hone, horder⟩ := Backplane.attached_in_any_order hslots hcalls
  refine ⟨hnone.afterAttachAll hsize, ?_, ?_, ?_⟩
  · intro before m after hsplit
    rw [hsplit, List.forall_mem_append, List.forall_mem_cons] at hsize
    exact attaches (hnone.afterAttachAll hsize.1) hsize.2.1
  · intro address
    have hone := hone address
    rw [backplane_afterAttachAll, backplane, List.filter_map, List.length_map] at hone
    exact hone
  · intro calls' hperm hapart history
    have hlike := horder (calls'.map fun m => (m.base, m.device)) (hperm.map _)
      (by rw [List.map_map, List.pairwise_map]; exact hapart) (history.map Action.lifted)
    simp only [backplane_afterAttachAll, backplane_actions] at hlike
    obtain ⟨hanswers, hshared⟩ := hlike
    exact ⟨hanswers, congrArg Shared.keys hshared, congrArg Shared.tones hshared⟩

/-- A keyboard right behind a screen, attached before it or after it. -/
theorem attached_apart_side_by_side :
    (∀ m ∈ [(⟨0xEFA3, .keyboard⟩ : Mapping), ⟨screen1Base, .screen "screen1"⟩],
      1 ≤ m.device.size) ∧
    ∀ history,
      (afterAttachAll {} [⟨0xEFA3, .keyboard⟩, ⟨screen1Base, .screen "screen1"⟩]).answers history =
        (afterAttachAll {} [⟨screen1Base, .screen "screen1"⟩, ⟨0xEFA3, .keyboard⟩]).answers
          history := by
  have hscreen : (Device.screen "screen1").size = 4003 := Array.size_replicate
  have hsize : ∀ m ∈ [(⟨0xEFA3, .keyboard⟩ : Mapping), ⟨screen1Base, .screen "screen1"⟩],
      1 ≤ m.device.size := by
    rw [List.forall_mem_cons, List.forall_mem_singleton, hscreen]
    exact ⟨by decide, by decide⟩
  have hapart : Mapping.Apart ⟨0xEFA3, .keyboard⟩ ⟨screen1Base, .screen "screen1"⟩ := by
    have hbase : screen1Base.toNat = 0xE000 := rfl
    have hkeyboard : (0xEFA3 : UInt16).toNat = 0xEFA3 := rfl
    intro address
    simp only [Mapping.Covers, Mapping.finish, hscreen, hbase, hkeyboard]
    omega
  refine ⟨hsize, fun history => ?_⟩
  exact ((attached_apart rfl hsize).2.2.2 _ (.swap _ _ []) (by simpa using hapart) history).1

end Bus

end B33
