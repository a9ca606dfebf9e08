import B33.Proofs.Bus.Action

/-!
# The stream of the sound

The sound takes the bytes written to its address in pairs, a note and then its duration. What it
keeps is the note that still waits for its duration, and what it has sent are the tones of the pairs
before. So both follow from the bytes alone, and from nothing else that was done to the bus.
-/
namespace B33.Bus

/-- The tones of a stream of bytes. -/
def tonesOf : List UInt8 → List Tone
  | note :: ticks :: bytes => { note, ticks } :: tonesOf bytes
  | _ => []

/-- The byte of a stream that is left without a partner. -/
def unpaired : List UInt8 → Option UInt8
  | [] => none
  | [note] => some note
  | _ :: _ :: bytes => unpaired bytes

/-- The bytes that writes put to the address of the sound. -/
def soundBytes (writes : List (UInt16 × UInt8)) : List UInt8 :=
  (writes.filter (·.1 = soundBase)).map (·.2)

/-- What an action writes, and where. -/
def Action.write? : Action → Option (UInt16 × UInt8)
  | write address value => some (address, value)
  | press _ | typeText _ | clearKeys | read .. => none

/-- A bus with the standard devices whose sound was given a stream of bytes. The host has already
taken some of the tones that were sent. -/
structure Plays (bytes : List UInt8) (taken : List Tone) (b : Bus) : Prop where
  standard : b.IsStandard
  pending : b.find? soundBase = some { base := soundBase, device := .sound (unpaired bytes) }
  tones : taken ++ b.tones.toList = tonesOf bytes

/-- One more byte begins a pair or completes one. -/
theorem unpaired_append (bytes : List UInt8) (value : UInt8) :
    unpaired (bytes ++ [value]) = if (unpaired bytes).isSome then none else some value := by
  fun_induction unpaired bytes with
  | case1 | case2 => rfl
  | case3 _ _ bytes ih => exact ih

/-- One more byte makes a tone if it completes a pair. -/
theorem tonesOf_append (bytes : List UInt8) (value : UInt8) :
    tonesOf (bytes ++ [value]) = tonesOf bytes ++
      ((unpaired bytes).map fun note => { note, ticks := value }).toList := by
  fun_induction unpaired bytes with
  | case1 | case2 => rfl
  | case3 note ticks bytes ih => exact congrArg (_ :: ·) ih

theorem isSome_unpaired (bytes : List UInt8) :
    (unpaired bytes).isSome = decide (bytes.length % 2 = 1) := by
  fun_induction unpaired bytes with
  | case1 | case2 => rfl
  | case3 _ _ bytes ih =>
      rw [ih, List.length_cons, List.length_cons, Nat.add_assoc, Nat.add_mod_right]

@[simp] theorem soundBytes_nil : soundBytes [] = [] := rfl

@[simp] theorem soundBytes_append (xs ys : List (UInt16 × UInt8)) :
    soundBytes (xs ++ ys) = soundBytes xs ++ soundBytes ys := by
  simp [soundBytes]

theorem soundBytes_cons (address : UInt16) (value : UInt8) (writes : List (UInt16 × UInt8)) :
    soundBytes ((address, value) :: writes) =
      (if address = soundBase then [value] else []) ++ soundBytes writes := by
  unfold soundBytes
  rw [List.filter_cons]
  split_ifs with h h' h'
  · rfl
  · simp [h'] at h
  · simp [h'] at h
  · rfl

theorem soundBytes_eq_nil {writes : List (UInt16 × UInt8)}
    (h : soundBase ∉ writes.map Prod.fst) : soundBytes writes = [] := by
  rw [soundBytes, List.map_eq_nil_iff, List.filter_eq_nil_iff]
  intro write hmem
  rw [decide_eq_true_eq]
  exact fun heq => h (heq ▸ List.mem_map_of_mem hmem)

/-- The actions of an access write what the access writes. -/
theorem Access.filterMap_write?_actions (access : Access) :
    access.actions.filterMap Action.write? = access.writes := by
  cases access with
  | load origin bytes =>
      simp only [Access.actions, Access.writes]
      split_ifs
      · rw [List.filterMap_map]
        exact List.filterMap_some
      · rfl
  | poke | pokeWord | peek | peekWord | inspect | inspectWord => rfl

theorem plays_standard : Plays [] [] standard := ⟨isStandard_standard, by decide +kernel, rfl⟩

namespace Plays
variable {bytes : List UInt8} {taken : List Tone} {b : Bus}

/-- Nothing that leaves devices and tones alone reaches the sound. -/
theorem of_devices {b' : Bus} (h : Plays bytes taken b) (hdevices : b'.devices = b.devices)
    (htones : b'.tones = b.tones) : Plays bytes taken b' where
  standard := h.standard.of_devices hdevices
  pending := by rw [find?, hdevices]; exact h.pending
  tones := by rw [htones]; exact h.tones

theorem of_keys {b' : Bus} {keys : List UInt8} (h : Plays bytes taken b)
    (hkeys : b' = { b with keys }) : Plays bytes taken b' := by
  rw [hkeys]
  exact h.of_devices rfl rfl

theorem takeTones (h : Plays bytes taken b) :
    Plays bytes (taken ++ b.takeTones.1) b.takeTones.2 where
  standard := h.standard.of_devices rfl
  pending := h.pending
  tones := by rw [← h.tones]; exact List.append_nil _

theorem poke (h : Plays bytes taken b) (address : UInt16) (value : UInt8) :
    Plays (bytes ++ soundBytes [(address, value)]) taken (b.poke address value) := by
  rw [soundBytes_cons, soundBytes_nil, List.append_nil]
  split_ifs with ha
  · subst ha
    refine ⟨h.standard.poke soundBase value, ?_, ?_⟩
    · rw [b.find?_poke_self, h.pending, unpaired_append]
      cases unpaired bytes <;> rfl
    · rw [tonesOf_append, ← h.tones, Bus.poke, h.pending]
      cases unpaired bytes with
      | none => exact (List.append_nil _).symm
      | some note =>
          show taken ++ (b.tones.push { note, ticks := value }).toList = _
          rw [Array.toList_push, List.append_assoc]
          rfl
  · obtain ⟨hpending, htones⟩ := h.standard.sound_poke ha value
    rw [List.append_nil]
    exact ⟨h.standard.poke address value, hpending.trans h.pending, by rw [htones]; exact h.tones⟩

theorem action (h : Plays bytes taken b) (action : Action) :
    Plays (bytes ++ soundBytes action.write?.toList) taken (action.after b) := by
  cases action with
  | write address value => exact h.poke address value
  | press | typeText | clearKeys =>
      rw [Action.write?, Option.toList_none, soundBytes_nil, List.append_nil]
      exact h.of_devices rfl rfl
  | read address bypass =>
      rw [Action.write?, Option.toList_none, soundBytes_nil, List.append_nil, Action.after,
        h.standard.peek_eq]
      split_ifs <;> exact h.of_devices rfl rfl

theorem actions (h : Plays bytes taken b) (history : List Action) :
    Plays (bytes ++ soundBytes (history.filterMap Action.write?)) taken
      (b.afterActions history) := by
  induction history generalizing bytes b with
  | nil => rwa [List.filterMap_nil, soundBytes_nil, List.append_nil]
  | cons action history ih =>
      have hwrites : (action :: history).filterMap Action.write? =
          action.write?.toList ++ history.filterMap Action.write? := by
        rw [List.filterMap_cons]
        cases action.write? <;> rfl
      rw [hwrites, soundBytes_append, ← List.append_assoc]
      exact ih (h.action action)

theorem access (h : Plays bytes taken b) (access : Access) :
    Plays (bytes ++ soundBytes access.writes) taken (access.after b) := by
  rw [access.after_eq, ← access.filterMap_write?_actions]
  exact h.actions access.actions

/-- The sound shows whether a note waits for its duration. -/
theorem inspect_eq (h : Plays bytes taken b) :
    b.inspect soundBase = if bytes.length % 2 = 1 then 1 else 0 := by
  rw [inspect_of_find? h.pending]
  show (if (unpaired bytes).isSome then 1 else 0) = _
  simp only [isSome_unpaired, decide_eq_true_eq]

/-- Bytes that are read one after the other all show the same of the sound. -/
theorem eq_of_mem_answers (h : Plays bytes taken b) (reads : List (UInt16 × Bool)) {value : UInt8}
    (hmem : (soundBase, value) ∈ b.answers (reads.map fun read => .read read.1 read.2)) :
    value = if bytes.length % 2 = 1 then 1 else 0 := by
  induction reads generalizing b with
  | nil => cases hmem
  | cons read reads ih =>
      rw [List.map_cons, answers, Action.answer?, Option.toList_some, List.singleton_append,
        List.mem_cons, peek_fst, ite_self, Prod.mk.injEq] at hmem
      rcases hmem with ⟨haddress, rfl⟩ | hmem
      · rw [← haddress, h.inspect_eq]
      · refine ih ?_ hmem
        have hnext := h.action (.read read.1 read.2)
        rwa [Action.write?, Option.toList_none, soundBytes_nil, List.append_nil] at hnext

theorem eq_of_mem_answer (h : Plays bytes taken b) (access : Access) {value : UInt8}
    (hmem : (soundBase, value) ∈ access.answer b) :
    value = if bytes.length % 2 = 1 then 1 else 0 := by
  cases access with
  | poke | pokeWord | load => cases hmem
  | peek address bypass =>
      rw [Access.answer_eq] at hmem
      exact h.eq_of_mem_answers [(address, bypass)] hmem
  | peekWord address bypass =>
      rw [Access.answer_eq] at hmem
      exact h.eq_of_mem_answers [(address, bypass), (address + 1, bypass)] hmem
  | inspect address =>
      rw [Access.answer_eq] at hmem
      exact h.eq_of_mem_answers [(address, true)] hmem
  | inspectWord address =>
      rw [Access.answer_eq] at hmem
      exact h.eq_of_mem_answers [(address, true), (address + 1, true)] hmem

end Plays

end B33.Bus
