import B33.Bus

/-!
# Devices of any kind

A bus knows of a device how many addresses it takes, and what an access to one of them answers and
changes. A backplane is a bus for devices of any kind. They have a state of their own, share another
one, and can change both even when they are read. A device is attached if its addresses end within
memory and none of them is another device's, so an address has one device at most. Which device
answers for it does then not depend on the order in which the devices were attached.
-/
namespace B33

/-- Devices of type `δ` which share a state of type `ρ`. -/
class Attachable (δ : Type) (ρ : outParam Type) where
  name : δ → String
  /-- The number of addresses, as it is when a device is attached. -/
  size : δ → Nat
  inspect : ρ → UInt16 → δ → UInt8
  peek : ρ → UInt16 → δ → UInt8 × ρ × δ
  poke : ρ → UInt16 → UInt8 → δ → ρ × δ

/-- A device and the addresses that it was attached at. -/
structure Slot (δ : Type) where
  base : UInt16
  /-- The address after the last one, which can be 65536. -/
  finish : Nat
  device : δ

namespace Slot
variable {δ : Type} {s t : Slot δ}

def contains (s : Slot δ) (address : UInt16) : Bool :=
  s.base ≤ address && address.toNat < s.finish

def meets (s t : Slot δ) : Bool := s.base.toNat < t.finish && t.base.toNat < s.finish

/-- Whether an address is one of the slot's, which can lie behind the end of memory. -/
def Covers (s : Slot δ) (address : Nat) : Prop := s.base.toNat ≤ address ∧ address < s.finish

/-- Whether two slots have no address in common. -/
def Apart (s t : Slot δ) : Prop := ∀ address, s.Covers address → ¬t.Covers address

theorem Apart.symm (h : s.Apart t) : t.Apart s := fun address ht hs => h address hs ht

theorem contains_iff {address : UInt16} : s.contains address = true ↔ s.Covers address.toNat := by
  rw [contains, Bool.and_eq_true, decide_eq_true_eq, decide_eq_true_eq, UInt16.le_iff_toNat_le]
  exact Iff.rfl

/-- The test for slots that meet is right for slots that have an address. -/
theorem meets_eq_false_iff (hs : s.base.toNat < s.finish) (ht : t.base.toNat < t.finish) :
    s.meets t = false ↔ s.Apart t := by
  have hmeets : s.meets t = false ↔ ¬s.base.toNat < t.finish ∨ ¬t.base.toNat < s.finish := by
    rw [meets, Bool.and_eq_false_iff, decide_eq_false_iff_not, decide_eq_false_iff_not]
  rw [hmeets]
  unfold Apart Covers
  constructor
  · intro h address
    omega
  · -- Two slots that meet have the first address of one of them in common.
    intro h
    have hfirst := h (max s.base.toNat t.base.toNat)
    omega

/-- An address is in at most one of two slots that are apart. -/
theorem Apart.not_contains (h : s.Apart t) {address : UInt16} (hs : s.contains address = true) :
    t.contains address = false := by
  rw [← Bool.not_eq_true, contains_iff]
  exact h _ (contains_iff.mp hs)

end Slot

/-- Memory, the devices mapped over it, and what they share. -/
structure Backplane (δ ρ : Type) where
  ram : Vector UInt8 65536
  slots : List (Slot δ)
  shared : ρ

namespace Backplane

/-- Slots that have addresses, which are all in memory and in no other slot. -/
structure Separate {δ : Type} (ss : List (Slot δ)) : Prop where
  nonempty : ∀ s ∈ ss, s.base.toNat < s.finish
  inside : ∀ s ∈ ss, s.finish ≤ 0x10000
  apart : ss.Pairwise Slot.Apart

/-- Puts a device in the place of the first one that answers for an address. -/
def replaceAt {δ : Type} (address : UInt16) (device : δ) : List (Slot δ) → List (Slot δ)
  | [] => []
  | s :: ss =>
    if s.contains address then { s with device } :: ss else s :: replaceAt address device ss

/-- A device that has not changed is put where it was. -/
theorem replaceAt_of_find? {δ : Type} {address : UInt16} {s : Slot δ} {ss : List (Slot δ)}
    (h : ss.find? (·.contains address) = some s) : replaceAt address s.device ss = ss := by
  induction ss with
  | nil => rfl
  | cons t ss ih =>
      rw [List.find?_cons] at h
      rw [replaceAt]
      cases ht : t.contains address with
      | true =>
          rw [ht] at h
          cases h
          rfl
      | false =>
          rw [ht] at h
          rw [if_neg nofun, ih h]

namespace Separate
variable {δ : Type} {ss ts : List (Slot δ)}

theorem perm (h : Separate ss) (hperm : ss.Perm ts) : Separate ts where
  nonempty s hs := h.nonempty s (hperm.mem_iff.mpr hs)
  inside s hs := h.inside s (hperm.mem_iff.mpr hs)
  apart := hperm.pairwise h.apart fun h => h.symm

theorem length_filter_contains_le (h : Separate ss) (address : UInt16) :
    (ss.filter (·.contains address)).length ≤ 1 := by
  have hpair := h.apart.filter (·.contains address)
  have hcontains : ∀ s ∈ ss.filter (·.contains address), s.contains address = true :=
    fun s hs => (List.mem_filter.mp hs).2
  cases hfilter : ss.filter (·.contains address) with
  | nil => exact Nat.zero_le _
  | cons s rest =>
      cases rest with
      | nil => exact Nat.le_refl _
      | cons t rest =>
          rw [hfilter] at hpair hcontains
          have hapart := List.rel_of_pairwise_cons hpair (List.mem_cons_self (a := t) (l := rest))
          have ht := hapart.not_contains (hcontains s List.mem_cons_self)
          rw [hcontains t (by simp)] at ht
          cases ht

theorem find?_eq_of_perm (h : Separate ss) (hperm : ss.Perm ts) (address : UInt16) :
    ss.find? (·.contains address) = ts.find? (·.contains address) := by
  have hfilter := hperm.filter (·.contains address)
  rw [← List.head?_filter, ← List.head?_filter]
  cases hss : ss.filter (·.contains address) with
  | nil =>
      rw [hss] at hfilter
      rw [hfilter.nil_eq]
  | cons s rest =>
      have hone := h.length_filter_contains_le address
      rw [hss, List.length_cons] at hone
      have hrest : rest = [] := List.length_eq_zero_iff.mp (by omega)
      rw [hss, hrest] at hfilter
      rw [hrest, List.singleton_perm.mp hfilter]

theorem replaceAt_eq_map (h : Separate ss) (address : UInt16) (device : δ) :
    replaceAt address device ss =
      ss.map fun s => if s.contains address then { s with device } else s := by
  induction ss with
  | nil => rfl
  | cons s ss ih =>
      obtain ⟨hfirst, hrest⟩ := List.pairwise_cons.mp h.apart
      rw [replaceAt, List.map_cons]
      cases hs : s.contains address with
      | true =>
          -- No other slot has the address, so that the others stay as they are.
          have hothers : ∀ t ∈ ss, (if t.contains address then { t with device } else t) = t :=
            fun t ht => if_neg (by simp [(hfirst t ht).not_contains hs])
          rw [if_pos rfl, if_pos rfl, List.map_congr_left hothers, List.map_id']
      | false =>
          have hseparate : Separate ss :=
            ⟨fun t ht => h.nonempty t (List.mem_cons_of_mem _ ht),
              fun t ht => h.inside t (List.mem_cons_of_mem _ ht), hrest⟩
          rw [if_neg nofun, if_neg nofun, ih hseparate]

/-- Devices stay where they were attached. -/
theorem replaceAt (h : Separate ss) (address : UInt16) (device : δ) :
    Separate (replaceAt address device ss) := by
  have hbase (s : Slot δ) :
      (if s.contains address then { s with device } else s).base = s.base := by
    split <;> rfl
  have hfinish (s : Slot δ) :
      (if s.contains address then { s with device } else s).finish = s.finish := by
    split <;> rfl
  rw [h.replaceAt_eq_map]
  constructor
  case nonempty =>
    rw [List.forall_mem_map]
    intro s hs
    rw [hbase, hfinish]
    exact h.nonempty s hs
  case inside =>
    rw [List.forall_mem_map]
    intro s hs
    rw [hfinish]
    exact h.inside s hs
  case apart =>
    rw [List.pairwise_map]
    refine h.apart.imp fun {s t} hapart => ?_
    unfold Slot.Apart Slot.Covers
    rwa [hbase, hbase, hfinish, hfinish]

end Separate

section
variable {δ ρ : Type} {b b' : Backplane δ ρ}

def find? (b : Backplane δ ρ) (address : UInt16) : Option (Slot δ) :=
  b.slots.find? (·.contains address)

def ramAt (b : Backplane δ ρ) (address : UInt16) : UInt8 :=
  b.ram.get ⟨address.toNat, address.toNat_lt⟩

/-- Two backplanes that differ in the order of their devices only. -/
structure Alike (b b' : Backplane δ ρ) : Prop where
  ram : b.ram = b'.ram
  shared : b.shared = b'.shared
  separate : Separate b.slots
  slots : b.slots.Perm b'.slots

namespace Alike
variable (h : Alike b b')
include h

theorem find?_eq (address : UInt16) : b.find? address = b'.find? address :=
  h.separate.find?_eq_of_perm h.slots address

theorem ramAt_eq (address : UInt16) : b.ramAt address = b'.ramAt address := by
  rw [ramAt, ramAt, h.ram]

theorem replaceAt (shared : ρ) (address : UInt16) (device : δ) :
    Alike { b with shared, slots := replaceAt address device b.slots }
      { b' with shared, slots := replaceAt address device b'.slots } where
  ram := h.ram
  shared := rfl
  separate := h.separate.replaceAt address device
  slots := by
    rw [h.separate.replaceAt_eq_map, (h.separate.perm h.slots).replaceAt_eq_map]
    exact h.slots.map _

end Alike

end

section
variable {δ ρ : Type} [Attachable δ ρ]

def slotAt (base : UInt16) (device : δ) : Slot δ :=
  { base, finish := base.toNat + Attachable.size device, device }

def attach (b : Backplane δ ρ) (base : UInt16) (device : δ) : Except BusError (Backplane δ ρ) :=
  let s := slotAt base device
  if 0x10000 < s.finish then .error (.outOfRange (Attachable.name device) base)
  else
    match b.slots.find? s.meets with
    | some other =>
      .error (.overlap (Attachable.name device) base (Attachable.name other.device) other.base)
    | none => .ok { b with slots := b.slots ++ [s] }

def inspect (b : Backplane δ ρ) (address : UInt16) : UInt8 :=
  match b.find? address with
  | some s => Attachable.inspect b.shared (address - s.base) s.device
  | none => b.ramAt address

def peek (b : Backplane δ ρ) (address : UInt16) : UInt8 × Backplane δ ρ :=
  match b.find? address with
  | some s =>
    let (value, shared, device) := Attachable.peek b.shared (address - s.base) s.device
    (value, { b with shared, slots := replaceAt address device b.slots })
  | none => (b.ramAt address, b)

def poke (b : Backplane δ ρ) (address : UInt16) (value : UInt8) : Backplane δ ρ :=
  match b.find? address with
  | some s =>
    let (shared, device) := Attachable.poke b.shared (address - s.base) value s.device
    { b with shared, slots := replaceAt address device b.slots }
  | none => { b with ram := b.ram.set address.toNat value address.toNat_lt }

/-- Something that is done at once. What the host does touches what devices share and nothing else,
and a read that bypasses the devices only inspects. -/
inductive Action (ρ : Type) where
  | host (f : ρ → ρ)
  | read (address : UInt16) (bypass : Bool)
  | write (address : UInt16) (value : UInt8)

namespace Action

def after (b : Backplane δ ρ) : Action ρ → Backplane δ ρ
  | host f => { b with shared := f b.shared }
  | read address bypass => if bypass then b else (b.peek address).2
  | write address value => b.poke address value

/-- The byte that is read, with its address. -/
def answer? (b : Backplane δ ρ) : Action ρ → Option (UInt16 × UInt8)
  | read address bypass => some (address, if bypass then b.inspect address else (b.peek address).1)
  | host _ | write .. => none

end Action

def afterActions (b : Backplane δ ρ) (history : List (Action ρ)) : Backplane δ ρ :=
  history.foldl Action.after b

def answers (b : Backplane δ ρ) : List (Action ρ) → List (UInt16 × UInt8)
  | [] => []
  | action :: later => (action.answer? b).toList ++ (action.after b).answers later

/-- The backplane after a call of `attach`. A call that is refused leaves it. -/
def afterAttach (b : Backplane δ ρ) (call : UInt16 × δ) : Backplane δ ρ :=
  match b.attach call.1 call.2 with
  | .ok b' => b'
  | .error _ => b

def afterAttachAll (b : Backplane δ ρ) (calls : List (UInt16 × δ)) : Backplane δ ρ :=
  calls.foldl afterAttach b

/-- Whether the addresses of a device end within memory and belong to no device that is there. -/
def HasRoom (b : Backplane δ ρ) (call : UInt16 × δ) : Prop :=
  (slotAt call.1 call.2).finish ≤ 0x10000 ∧ ∀ s ∈ b.slots, (slotAt call.1 call.2).Apart s

variable {b b' : Backplane δ ρ} {call : UInt16 × δ} {calls : List (UInt16 × δ)}

theorem attach_eq_ok_iff :
    b.attach call.1 call.2 = .ok b' ↔
      (slotAt call.1 call.2).finish ≤ 0x10000 ∧
        (∀ s ∈ b.slots, (slotAt call.1 call.2).meets s = false) ∧
        { b with slots := b.slots ++ [slotAt call.1 call.2] } = b' := by
  unfold attach
  by_cases hfits : (slotAt call.1 call.2).finish ≤ 0x10000
  · rw [if_neg (Nat.not_lt.mpr hfits)]
    cases hfind : b.slots.find? (slotAt call.1 call.2).meets with
    | some other =>
        refine iff_of_false nofun ?_
        rintro ⟨-, hnone, -⟩
        have hmeets := hnone other (List.mem_of_find?_eq_some hfind)
        rw [List.find?_some hfind] at hmeets
        cases hmeets
    | none =>
        simp only [List.find?_eq_none, Bool.not_eq_true] at hfind
        simp only [Except.ok.injEq, hfits, true_and]
        exact ⟨fun h => ⟨hfind, h⟩, fun h => h.2⟩
  · rw [if_pos (Nat.not_le.mp hfits)]
    exact iff_of_false nofun fun h => hfits h.1

/-- A device with addresses is attached exactly where there is room for it. -/
theorem attach_eq_ok_iff_hasRoom (hb : Separate b.slots) (hsize : 1 ≤ Attachable.size call.2) :
    b.attach call.1 call.2 = .ok b' ↔
      b.HasRoom call ∧ { b with slots := b.slots ++ [slotAt call.1 call.2] } = b' := by
  have hnonempty : (slotAt call.1 call.2).base.toNat < (slotAt call.1 call.2).finish := by
    unfold slotAt
    dsimp only
    omega
  have hmeets : (∀ s ∈ b.slots, (slotAt call.1 call.2).meets s = false) ↔
      ∀ s ∈ b.slots, (slotAt call.1 call.2).Apart s :=
    forall₂_congr fun s hs => Slot.meets_eq_false_iff hnonempty (hb.nonempty s hs)
  rw [attach_eq_ok_iff, hmeets, HasRoom, and_assoc]

theorem afterAttach_of_hasRoom (hb : Separate b.slots) (hsize : 1 ≤ Attachable.size call.2)
    (h : b.HasRoom call) :
    b.afterAttach call = { b with slots := b.slots ++ [slotAt call.1 call.2] } := by
  have hok := (attach_eq_ok_iff_hasRoom hb hsize).mpr ⟨h, rfl⟩
  rw [afterAttach, hok]

theorem afterAttach_of_not_hasRoom (hb : Separate b.slots) (hsize : 1 ≤ Attachable.size call.2)
    (h : ¬b.HasRoom call) : b.afterAttach call = b := by
  unfold afterAttach
  cases hattach : b.attach call.1 call.2 with
  | ok b' => exact (h ((attach_eq_ok_iff_hasRoom hb hsize).mp hattach).1).elim
  | error e => rfl

theorem Separate.afterAttach (h : Separate b.slots) (hsize : 1 ≤ Attachable.size call.2) :
    Separate (b.afterAttach call).slots := by
  by_cases hroom : b.HasRoom call
  · rw [afterAttach_of_hasRoom h hsize hroom]
    constructor
    case nonempty =>
      refine List.forall_mem_append.mpr ⟨h.nonempty, List.forall_mem_singleton.mpr ?_⟩
      unfold slotAt
      dsimp only
      omega
    case inside =>
      exact List.forall_mem_append.mpr ⟨h.inside, List.forall_mem_singleton.mpr hroom.1⟩
    case apart =>
      rw [List.pairwise_append]
      refine ⟨h.apart, List.pairwise_singleton _ _, fun s hs t ht => ?_⟩
      rw [List.mem_singleton.mp ht]
      exact (hroom.2 s hs).symm
  · rw [afterAttach_of_not_hasRoom h hsize hroom]
    exact h

theorem Separate.afterAttachAll (h : Separate b.slots)
    (hsize : ∀ c ∈ calls, 1 ≤ Attachable.size c.2) :
    Separate (b.afterAttachAll calls).slots := by
  induction calls generalizing b with
  | nil => exact h
  | cons call calls ih =>
      obtain ⟨hfirst, hrest⟩ := List.forall_mem_cons.mp hsize
      exact ih (h.afterAttach hfirst) hrest

/-- Devices that are apart are all attached, but for those that end behind the end of memory. -/
theorem Separate.afterAttachAll_eq (h : Separate b.slots)
    (hsize : ∀ c ∈ calls, 1 ≤ Attachable.size c.2)
    (hapart : (b.slots ++ calls.map fun c => slotAt c.1 c.2).Pairwise Slot.Apart) :
    b.afterAttachAll calls = { b with
      slots := b.slots ++ (calls.map fun c => slotAt c.1 c.2).filter (·.finish ≤ 0x10000) } := by
  induction calls generalizing b with
  | nil => simp [Backplane.afterAttachAll]
  | cons call calls ih =>
      obtain ⟨hfirst, hrest⟩ := List.forall_mem_cons.mp hsize
      have hnext := h.afterAttach hfirst
      have hothers : ∀ s ∈ b.slots, (slotAt call.1 call.2).Apart s := by
        intro s hs
        exact ((List.pairwise_append.mp hapart).2.2 s hs _ List.mem_cons_self).symm
      rw [Backplane.afterAttachAll, List.foldl_cons, ← Backplane.afterAttachAll, List.map_cons]
      by_cases hfits : (slotAt call.1 call.2).finish ≤ 0x10000
      · have heq := afterAttach_of_hasRoom h hfirst ⟨hfits, hothers⟩
        rw [heq] at hnext ⊢
        rw [ih hnext hrest (by simpa using hapart), List.filter_cons_of_pos (by simpa using hfits)]
        simp
      · have heq := afterAttach_of_not_hasRoom h hfirst fun hroom => hfits hroom.1
        rw [heq, List.filter_cons_of_neg (by simpa using hfits)]
        exact ih h hrest (hapart.sublist (by simp))

namespace Alike
variable (h : Alike b b')
include h

theorem inspect_eq (address : UInt16) : b.inspect address = b'.inspect address := by
  rw [inspect, inspect, h.find?_eq, h.shared, h.ramAt_eq]

theorem peek (address : UInt16) :
    (b.peek address).1 = (b'.peek address).1 ∧ Alike (b.peek address).2 (b'.peek address).2 := by
  unfold Backplane.peek
  rw [h.find?_eq, h.shared]
  cases b'.find? address with
  | none => exact ⟨h.ramAt_eq address, h⟩
  | some s => exact ⟨rfl, h.replaceAt _ address _⟩

theorem poke (address : UInt16) (value : UInt8) :
    Alike (b.poke address value) (b'.poke address value) := by
  unfold Backplane.poke
  rw [h.find?_eq]
  cases b'.find? address with
  | none => exact ⟨by rw [h.ram], h.shared, h.separate, h.slots⟩
  | some s =>
      rw [h.shared]
      exact h.replaceAt _ address _

theorem action (a : Action ρ) :
    Alike (a.after b) (a.after b') ∧ a.answer? b = a.answer? b' := by
  cases a with
  | host f => exact ⟨⟨h.ram, congrArg f h.shared, h.separate, h.slots⟩, rfl⟩
  | write address value => exact ⟨h.poke address value, rfl⟩
  | read address bypass =>
      obtain ⟨hvalue, hnext⟩ := h.peek address
      cases bypass with
      | true => exact ⟨h, congrArg (fun value => some (address, value)) (h.inspect_eq address)⟩
      | false => exact ⟨hnext, congrArg (fun value => some (address, value)) hvalue⟩

theorem actions (history : List (Action ρ)) :
    Alike (b.afterActions history) (b'.afterActions history) ∧
      b.answers history = b'.answers history := by
  induction history generalizing b b' with
  | nil => exact ⟨h, rfl⟩
  | cons a history ih =>
      obtain ⟨hnext, hanswer⟩ := h.action a
      obtain ⟨hlast, hanswers⟩ := ih hnext
      refine ⟨hlast, ?_⟩
      rw [answers, answers, hanswer, hanswers]

end Alike

/-- Whatever devices are, calls of `attach` in a row accept those that there is room for, and no two
that are accepted have an address in common. Devices that are apart can be attached in any order:
whatever is done then, what is read is the same, and so is what the devices share. -/
theorem attached_in_any_order (hb : b.slots = [])
    (hsize : ∀ c ∈ calls, 1 ≤ Attachable.size c.2) :
    Separate (b.afterAttachAll calls).slots ∧
    (∀ before c after, calls = before ++ c :: after → ∀ b',
      (b.afterAttachAll before).attach c.1 c.2 = .ok b' ↔
        (b.afterAttachAll before).HasRoom c ∧
          { b.afterAttachAll before with
            slots := (b.afterAttachAll before).slots ++ [slotAt c.1 c.2] } = b') ∧
    (∀ address, ((b.afterAttachAll calls).slots.filter (·.contains address)).length ≤ 1) ∧
    (∀ calls', calls.Perm calls' →
      (calls.map fun c => slotAt c.1 c.2).Pairwise Slot.Apart → ∀ history,
        (b.afterAttachAll calls).answers history = (b.afterAttachAll calls').answers history ∧
        ((b.afterAttachAll calls).afterActions history).shared =
          ((b.afterAttachAll calls').afterActions history).shared) := by
  have hnone : Separate b.slots := by
    rw [hb]
    exact ⟨by simp, by simp, List.Pairwise.nil⟩
  have hseparate := hnone.afterAttachAll hsize
  refine ⟨hseparate, ?_, hseparate.length_filter_contains_le, ?_⟩
  · intro before c after hcalls b'
    rw [hcalls, List.forall_mem_append, List.forall_mem_cons] at hsize
    exact attach_eq_ok_iff_hasRoom (hnone.afterAttachAll hsize.1) hsize.2.1
  · intro calls' hperm hapart history
    have hsize' : ∀ c ∈ calls', 1 ≤ Attachable.size c.2 :=
      fun c hc => hsize c (hperm.mem_iff.mpr hc)
    have hslots := hperm.map fun c => slotAt c.1 c.2
    have hapart' := hslots.pairwise hapart fun h => h.symm
    have halike : Alike (b.afterAttachAll calls) (b.afterAttachAll calls') := by
      have heq := hnone.afterAttachAll_eq hsize (by rwa [hb])
      have heq' := hnone.afterAttachAll_eq hsize' (by rwa [hb])
      rw [heq] at hseparate ⊢
      rw [heq']
      exact ⟨rfl, rfl, hseparate, (hslots.filter _).append_left _⟩
    obtain ⟨hlast, hanswers⟩ := halike.actions history
    exact ⟨hanswers, hlast.shared⟩

end

end Backplane

end B33
