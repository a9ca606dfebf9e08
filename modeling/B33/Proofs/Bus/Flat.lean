import B33.Proofs.Bus.Standard

/-!
# The bus as a flat memory

With the standard devices the bus is a flat memory of 65536 bytes at every address but three. After
any sequence of accesses a read of such an address finds the byte that was written there last,
through whatever access, and zero if none was. Reads leave no trace that a later read could find.
-/
namespace B33.Bus

/-- An access to the bus. A read that bypasses the devices has no side effect on them. -/
inductive Access where
  | poke (address : UInt16) (value : UInt8)
  | pokeWord (address value : UInt16)
  | load (origin : UInt16) (bytes : List UInt8)
  | peek (address : UInt16) (bypass : Bool)
  | peekWord (address : UInt16) (bypass : Bool)
  | inspect (address : UInt16)
  | inspectWord (address : UInt16)

/-- Bytes that lie one behind the other from an address on. -/
def bytesFrom (address : UInt16) (values : List UInt8) : List (UInt16 × UInt8) :=
  values.mapIdx fun i value => (address + UInt16.ofNat i, value)

/-- The last byte that is written to an address, or `before` if none is. -/
def latest (writes : List (UInt16 × UInt8)) (address : UInt16) (before : UInt8) : UInt8 :=
  ((writes.reverse.find? (·.1 == address)).map (·.2)).getD before

namespace Access

def isRead : Access → Bool
  | poke .. | pokeWord .. | load .. => false
  | peek .. | peekWord .. | inspect _ | inspectWord _ => true

/-- The bus after an access. A load that is refused leaves it. -/
def after (b : Bus) : Access → Bus
  | poke address value => b.poke address value
  | pokeWord address value => b.pokeWord address value
  | load origin bytes =>
    match b.load origin bytes with
    | .ok b' => b'
    | .error _ => b
  | peek address bypass => if bypass then b else (b.peek address).2
  | peekWord address bypass => if bypass then b else (b.peekWord address).2
  | inspect _ | inspectWord _ => b

/-- The two bytes of a word and the addresses where they lie. -/
def wordFrom (address value : UInt16) : List (UInt16 × UInt8) :=
  [(address, lowByte value), (address + 1, highByte value)]

/-- The bytes that a read answers with, each with its address. -/
def answer (b : Bus) : Access → List (UInt16 × UInt8)
  | poke .. | pokeWord .. | load .. => []
  | peek address bypass => [(address, if bypass then b.inspect address else (b.peek address).1)]
  | peekWord address bypass =>
    wordFrom address (if bypass then b.inspectWord address else (b.peekWord address).1)
  | inspect address => [(address, b.inspect address)]
  | inspectWord address => wordFrom address (b.inspectWord address)

/-- The addresses that are read. -/
def sources : Access → List UInt16
  | poke .. | pokeWord .. | load .. => []
  | peek address _ | inspect address => [address]
  | peekWord address _ | inspectWord address => [address, address + 1]

/-- The bytes that an access writes, in order, each with its address. -/
def writes : Access → List (UInt16 × UInt8)
  | poke address value => [(address, value)]
  | pokeWord address value => wordFrom address value
  | load origin bytes =>
    if origin.toNat + bytes.length ≤ 0x10000 then bytesFrom origin bytes else []
  | peek .. | peekWord .. | inspect _ | inspectWord _ => []

end Access

def afterAll (b : Bus) (history : List Access) : Bus := history.foldl Access.after b

/-- The last byte that a history writes to an address, and zero if it writes none. -/
def lastWritten (history : List Access) (address : UInt16) : UInt8 :=
  latest (history.flatMap Access.writes) address 0

theorem latest_append (xs ys : List (UInt16 × UInt8)) (address : UInt16) (before : UInt8) :
    latest (xs ++ ys) address before = latest ys address (latest xs address before) := by
  unfold latest
  rw [List.reverse_append, List.find?_append]
  cases ys.reverse.find? (·.1 == address) with
  | none => rfl
  | some y => rfl

theorem latest_cons (x : UInt16 × UInt8) (xs : List (UInt16 × UInt8)) (address : UInt16)
    (before : UInt8) :
    latest (x :: xs) address before = latest xs address (if x.1 = address then x.2 else before) := by
  rw [← List.singleton_append, latest_append]
  congr 1
  by_cases h : x.1 = address
  · simp [latest, h]
  · simp [latest, h]

theorem bytesFrom_cons (address : UInt16) (value : UInt8) (values : List UInt8) :
    bytesFrom address (value :: values) = (address, value) :: bytesFrom (address + 1) values := by
  simp only [bytesFrom, List.mapIdx_cons, add_ofNat_succ]
  simp

variable {b : Bus}

theorem IsStandard.pokeAll (h : b.IsStandard) (address : UInt16) (values : List UInt8) :
    (b.pokeAll address values).IsStandard := by
  induction values generalizing b address with
  | nil => exact h
  | cons value values ih => exact ih (h.poke address value) (address + 1)

theorem IsStandard.peek (h : b.IsStandard) (address : UInt16) : (b.peek address).2.IsStandard := by
  rw [h.peek_eq]
  split
  · exact h.of_devices rfl
  · exact h

theorem IsStandard.after (h : b.IsStandard) (access : Access) : (access.after b).IsStandard := by
  cases access with
  | poke address value => exact h.poke address value
  | pokeWord address value => exact (h.poke _ _).poke _ _
  | load origin bytes =>
      simp only [Access.after, Bus.load]
      split_ifs
      · exact h
      · exact h.pokeAll origin bytes
  | peek address bypass =>
      cases bypass with
      | true => exact h
      | false => exact h.peek address
  | peekWord address bypass =>
      cases bypass with
      | true => exact h
      | false => exact (h.peek address).peek (address + 1)
  | inspect | inspectWord => exact h

theorem IsStandard.afterAll (h : b.IsStandard) (history : List Access) :
    (b.afterAll history).IsStandard := by
  induction history generalizing b with
  | nil => exact h
  | cons access history ih => exact ih (h.after access)

theorem IsStandard.inspect_pokeAll (h : b.IsStandard) {address : UInt16} (hp : IsPlain address)
    (origin : UInt16) (values : List UInt8) :
    (b.pokeAll origin values).inspect address =
      latest (bytesFrom origin values) address (b.inspect address) := by
  induction values generalizing b origin with
  | nil => rfl
  | cons value values ih =>
      rw [bytesFrom_cons, latest_cons, Bus.pokeAll, ih (h.poke origin value),
        inspect_poke (h.keeps hp)]

theorem IsStandard.inspect_peek (h : b.IsStandard) {address : UInt16} (hp : IsPlain address)
    (other : UInt16) : (b.peek other).2.inspect address = b.inspect address := by
  rw [h.peek_eq]
  split
  · exact inspect_of_keys (h.keeps hp) _
  · rfl

/-- What an access writes, and nothing else, is found after it. -/
theorem IsStandard.inspect_after (h : b.IsStandard) {address : UInt16} (hp : IsPlain address)
    (access : Access) :
    (access.after b).inspect address = latest access.writes address (b.inspect address) := by
  cases access with
  | poke other value =>
      rw [Access.writes, latest_cons]
      exact inspect_poke (h.keeps hp) other value
  | pokeWord other value =>
      rw [Access.writes, Access.wordFrom, latest_cons, latest_cons]
      show ((b.poke other _).poke (other + 1) _).inspect address = _
      rw [inspect_poke ((h.poke other _).keeps hp), inspect_poke (h.keeps hp)]
      rfl
  | load origin bytes =>
      simp only [Access.after, Access.writes, Bus.load]
      by_cases hfits : origin.toNat + bytes.length ≤ 0x10000
      · rw [if_neg (Nat.not_lt.mpr hfits), if_pos hfits]
        exact h.inspect_pokeAll hp origin bytes
      · rw [if_pos (Nat.not_le.mp hfits), if_neg hfits]
        rfl
  | peek other bypass =>
      cases bypass with
      | true => rfl
      | false => exact h.inspect_peek hp other
  | peekWord other bypass =>
      cases bypass with
      | true => rfl
      | false => exact ((h.peek other).inspect_peek hp (other + 1)).trans (h.inspect_peek hp other)
  | inspect | inspectWord => rfl

theorem IsStandard.inspect_afterAll (h : b.IsStandard) {address : UInt16} (hp : IsPlain address)
    (history : List Access) :
    (b.afterAll history).inspect address =
      latest (history.flatMap Access.writes) address (b.inspect address) := by
  induction history generalizing b with
  | nil => rfl
  | cons access history ih =>
      rw [List.flatMap_cons, latest_append, ← h.inspect_after hp access]
      exact ih (h.after access)

theorem inspect_standard {address : UInt16} (hp : IsPlain address) :
    standard.inspect address = 0 := by
  cases hm : standard.find? address with
  | none =>
      rw [inspect_of_find?_none hm]
      exact Vector.getElem_replicate _
  | some m =>
      rw [inspect_of_find? hm]
      have hkeeps := isStandard_standard.keeps hp m hm
      have hmem : m ∈ standard.devices := List.mem_of_find?_eq_some hm
      simp only [standard, List.mem_cons, List.not_mem_nil, or_false] at hmem
      rcases hmem with rfl | rfl | rfl | rfl
      · simp [Device.screen, Device.inspect, Array.getD]
      · simp [Device.screen, Device.inspect, Array.getD]
      · cases hkeeps
      · cases hkeeps

/-- A read answers with what is at the addresses that it reads. -/
theorem IsStandard.mem_answer_iff (h : b.IsStandard) {address : UInt16} (hp : IsPlain address)
    {value : UInt8} (read : Access) :
    (address, value) ∈ read.answer b ↔ address ∈ read.sources ∧ value = b.inspect address := by
  have hword (other : UInt16) :
      (address, value) ∈ Access.wordFrom other (b.inspectWord other) ↔
        address ∈ [other, other + 1] ∧ value = b.inspect address := by
    simp only [Access.wordFrom, inspectWord, lowByte_wordOf, highByte_wordOf, List.mem_cons,
      Prod.mk.injEq, List.not_mem_nil, or_false]
    grind
  cases read with
  | poke | pokeWord | load => simp [Access.answer, Access.sources]
  | inspect other =>
      simp only [Access.answer, Access.sources, List.mem_singleton, Prod.mk.injEq]
      grind
  | inspectWord other => exact hword other
  | peek other bypass =>
      simp only [Access.answer, Access.sources, List.mem_singleton, Prod.mk.injEq, peek_fst,
        ite_self]
      grind
  | peekWord other bypass =>
      cases bypass with
      | true => exact hword other
      | false =>
          -- The second byte is read after the first, which can have taken a key.
          have hpeek : (b.peekWord other).1 =
              wordOf ((b.peek other).2.inspect (other + 1)) (b.inspect other) := by
            simp only [Bus.peekWord, peek_fst]
          have hsecond : address = other + 1 →
              (b.peek other).2.inspect (other + 1) = b.inspect address := by
            rintro rfl
            exact h.inspect_peek hp other
          simp only [Access.answer, Access.sources, Access.wordFrom, Bool.false_eq_true, if_false,
            hpeek, lowByte_wordOf, highByte_wordOf, List.mem_cons, Prod.mk.injEq,
            List.not_mem_nil, or_false]
          grind

theorem mem_answer_afterAll_iff {address : UInt16} (hp : IsPlain address) {value : UInt8}
    (history : List Access) (read : Access) :
    (address, value) ∈ read.answer (standard.afterAll history) ↔
      address ∈ read.sources ∧ value = lastWritten history address := by
  rw [(isStandard_standard.afterAll history).mem_answer_iff hp,
    isStandard_standard.inspect_afterAll hp, inspect_standard hp]
  rfl

theorem lastWritten_of_isRead {access : Access} (h : access.isRead = true)
    (history later : List Access) :
    lastWritten (history ++ access :: later) = lastWritten (history ++ later) := by
  have hnone : access.writes = [] := by
    cases access with
    | poke | pokeWord | load => cases h
    | peek | peekWord | inspect | inspectWord => rfl
  funext address
  rw [lastWritten, lastWritten, List.flatMap_append, List.flatMap_cons, hnone, List.nil_append,
    List.flatMap_append]

/-- The bus with the standard devices is a flat memory outside the cells of the sound and the
keyboard. -/
theorem standard_is_flat (history : List Access) :
    (∀ read address value, IsPlain address →
      ((address, value) ∈ Access.answer (standard.afterAll history) read ↔
        address ∈ read.sources ∧ value = lastWritten history address)) ∧
    (∀ access later, access.isRead = true → ∀ read address value, IsPlain address →
      ((address, value) ∈ Access.answer (standard.afterAll (history ++ access :: later)) read ↔
        (address, value) ∈ Access.answer (standard.afterAll (history ++ later)) read)) ∧
    (∀ (b : Bus) (address word : UInt16) (low high : UInt8),
      word.toNat = low.toNat + 256 * high.toNat →
        b.pokeWord address word = (b.poke address low).poke (address + 1) high) ∧
    (∀ (b : Bus) (origin : UInt16) (bytes : List UInt8), 0x10000 < origin.toNat + bytes.length →
      b.load origin bytes = .error (.programTooLarge origin bytes.length) ∧
        (Access.load origin bytes).after b = b) := by
  refine ⟨?_, ?_, ?_, ?_⟩
  · intro read address value hp
    exact mem_answer_afterAll_iff hp history read
  · intro access later hread read address value hp
    rw [mem_answer_afterAll_iff hp, mem_answer_afterAll_iff hp, lastWritten_of_isRead hread]
  · intro b address word low high hword
    have hlow : lowByte word = low := by
      have := low.toNat_lt
      apply UInt8.toNat_inj.mp
      rw [toNat_lowByte]
      omega
    have hhigh : highByte word = high := by
      have := low.toNat_lt
      apply UInt8.toNat_inj.mp
      rw [toNat_highByte]
      omega
    rw [pokeWord, hlow, hhigh]
  · intro b origin bytes hlong
    have hrefused : b.load origin bytes = .error (.programTooLarge origin bytes.length) :=
      if_pos hlong
    refine ⟨hrefused, ?_⟩
    simp only [Access.after, hrefused]

/-- A word that lies over the end of a screen, read after a key was taken. -/
theorem reads_word_over_screen_end :
    IsPlain 0xEFA3 ∧ (0xEFA3, 3) ∈ Access.answer
      (standard.afterAll [.pokeWord 0xEFA2 0x0302, .load 0xEFA4 [7], .peek 0xFFFF false])
      (.peekWord 0xEFA2 false) := by
  have hp : IsPlain 0xEFA3 := ⟨by decide, by decide, by decide⟩
  exact ⟨hp, ((standard_is_flat _).1 _ _ _ hp).mpr ⟨by decide, by decide⟩⟩

end B33.Bus
