import B33.Proofs.Executable.Ends

/-!
# Reading in memory

In memory an executable is read at a position, with numbers that have a width. A scan does this, and
stops where a byte outside the input would be read or a number would not fit. Its loops are counted,
so it comes to an end, and it never stops so: at every position it does what the reader does with
the bytes from there on, whatever these are. This is kept where one part is scanned after another.
Of the width it needs that the length of the input is such a number, and that an address and a count
can be added.
-/
namespace B33.Executable

/-- Why a scan gives no result. -/
inductive Stop where
  | refused (e : FormatError)
  /-- A number does not fit its type. -/
  | overflow
  /-- There is no byte where one is read. -/
  | outside
  deriving DecidableEq, Repr

/-- Bytes in memory, where lengths and positions have a number of bits. -/
structure Input where
  data : List UInt8
  width : Nat

/-- A scan goes on from a position. -/
abbrev Scan := StateT Nat (Except Stop)

namespace Scan

def fit (bits n : Nat) : Scan Nat := if n < 2 ^ bits then return n else throw .overflow

def minus (a b : Nat) : Scan Nat := if b ≤ a then return a - b else throw .overflow

def index (bytes : List UInt8) (i : Nat) : Scan UInt8 :=
  match bytes[i]? with
  | some b => return b
  | none => throw .outside

def refuse (refused : Bool) (e : FormatError) : Scan Unit :=
  if refused then throw (.refused e) else return ()

/-- Looks whether execution starts in a program, at its last byte at the latest. The address of that
byte is a word. -/
def checkEntry (origin entry length : UInt16) : Scan Unit :=
  if 0 < length.toNat then do
    let behind ← minus length.toNat 1
    let distance ← fit 16 behind
    let last ← fit 16 (origin.toNat + distance)
    refuse (!(origin.toNat ≤ entry.toNat && entry.toNat ≤ last)) (.entryOutside entry)
  else return ()

end Scan

namespace Input
open Scan

variable (input : Input)

def bytesAt (start : Nat) : Nat → Scan (List UInt8)
  | 0 => return []
  | n + 1 => do
    let b ← index input.data start
    let bytes ← bytesAt (start + 1) n
    return b :: bytes

/-- The next `n` bytes. An end that is no position is behind the input. -/
def take (n : Nat) : Scan (List UInt8) := do
  let position ← get
  let stop := position + n
  if stop < 2 ^ input.width ∧ stop ≤ input.data.length then
    let bytes ← input.bytesAt position n
    set stop
    return bytes
  else throw (.refused .truncated)

def byte : Scan UInt8 := do
  let bytes ← input.take 1
  index bytes 0

def word : Scan UInt16 := do
  let bytes ← input.take 2
  let low ← index bytes 0
  let high ← index bytes 1
  return wordOf high low

def text (n : Nat) : Scan String := do
  let bytes ← input.take n
  match String.fromUTF8? ⟨bytes.toArray⟩ with
  | some s => return s
  | none => throw (.refused .invalidText)

def entry : Scan DebugEntry := do
  let address ← input.word
  let line ← input.word
  let length ← input.word
  let text ← input.text length.toNat
  return { address, line, text }

def entries (taken : List DebugEntry) : Nat → Scan (List DebugEntry)
  | 0 => return taken.reverse
  | n + 1 => do
    let entry ← input.entry
    entries (entry :: taken) n

def label (table : LabelTable) : Scan LabelTable := do
  let address ← input.word
  let length ← input.byte
  let name ← input.text length.toNat
  match table.insert name address with
  | .ok table => return table
  | .error _ => throw (.refused (.duplicateLabel name))

def labels (table : LabelTable) : Nat → Scan LabelTable
  | 0 => return table
  | n + 1 => do
    let table ← input.label table
    labels table n

def header : Scan Header := do
  let found ← input.byte
  refuse (found != version) (.unsupportedVersion found)
  let origin ← input.word
  let entry ← input.word
  let flags ← input.byte
  let length ← input.word
  let stop ← fit input.width (origin.toNat + length.toNat)
  refuse (stop > 0x10000) (.originOutOfRange origin length.toNat)
  checkEntry origin entry length
  return { origin, entry, flags, length }

def tables (p : Program) : Scan Program :=
  let program : Program :=
    { bytes := p.bytes, origin := p.origin, entry := p.entry, kind := .executable,
      dualMonitor := p.dualMonitor }
  if p.hasDebugInfo then do
    let debugEntries ← input.entries [] (← input.word).toNat
    let labels ← input.labels {} (← input.word).toNat
    return { program with hasDebugInfo := true, debugEntries, labels }
  else return program

def program : Scan Program := do
  let h ← input.header
  let bytes ← input.take h.length.toNat
  input.tables (h.program bytes)

/-- Bytes that end before a signature could are refused for it. -/
def signature : Scan (List UInt8) := fun position =>
  match input.take Executable.signature.length position with
  | .error (.refused _) => .error (.refused .badSignature)
  | result => result

def checkEnd : Scan Unit := do
  let position ← get
  let left ← minus input.data.length position
  refuse (left != 0) (.trailingData left)

def scan : Scan Program := do
  let found ← input.signature
  refuse (found != Executable.signature) .badSignature
  let program ← input.program
  input.checkEnd
  return program

def result : Except Stop Program := (input.scan 0).map Prod.fst

/-- A scan has done what a reader has. -/
inductive Matches {α : Type} : Except Stop (α × Nat) → Except FormatError (α × List UInt8) → Prop
  | ok (a : α) {next : Nat} (h : next ≤ input.data.length) :
      Matches (.ok (a, next)) (.ok (a, input.data.drop next))
  | refused (e : FormatError) : Matches (.error (.refused e)) (.error e)

/-- A scan does at each position what a reader does with the bytes from there on. -/
def Follows {α : Type} (s : Scan α) (r : Reader α) : Prop :=
  ∀ position ≤ input.data.length, input.Matches (s position) (r (input.data.drop position))

namespace Follows

variable {input : Input} {α β : Type}

protected theorem pure (a : α) : input.Follows (pure a) (pure a) :=
  fun _ h => .ok a h

protected theorem throw (e : FormatError) :
    input.Follows (throw (.refused e) : Scan α) (throw e : Reader α) :=
  fun _ _ => .refused e

protected theorem bind {s : Scan α} {r : Reader α} {f : α → Scan β} {g : α → Reader β}
    (h : input.Follows s r) (hlater : ∀ a, input.Follows (f a) (g a)) :
    input.Follows (s >>= f) (r >>= g) := by
  intro position hposition
  have hfirst := h position hposition
  rw [state_bind_apply, state_bind_apply]
  generalize s position = found at hfirst
  generalize r (input.data.drop position) = read at hfirst
  cases hfirst with
  | ok a hnext => exact hlater a _ hnext
  | refused e => exact .refused e

theorem refuse (refused : Bool) (e : FormatError) :
    input.Follows (Scan.refuse refused e) (refuseIf refused e) := by
  cases refused with
  | true => exact .throw e
  | false => exact .pure ()

/-- What is not refused is known later. -/
theorem refuse_bind {refused : Bool} {e : FormatError} {s : Scan α} {r : Reader α}
    (h : refused = false → input.Follows s r) :
    input.Follows (Scan.refuse refused e >>= fun _ => s) (refuseIf refused e >>= fun _ => r) := by
  cases refused with
  | true => exact fun _ _ => .refused e
  | false => exact h rfl

end Follows

variable {input : Input}

theorem bytesAt_eq {start n position : Nat} (h : start + n ≤ input.data.length) :
    input.bytesAt start n position = .ok ((input.data.drop start).take n, position) := by
  induction n generalizing start with
  | zero => rfl
  | succ n ih =>
      have hbyte : input.data[start]? = some input.data[start] :=
        List.getElem?_eq_getElem (by omega)
      have hindex : index input.data start position = .ok (input.data[start], position) := by
        rw [index, hbyte]
        rfl
      rw [List.drop_eq_getElem_cons (by omega), List.take_succ_cons, bytesAt, state_bind_apply,
        hindex, ok_bind, state_bind_apply, ih (by omega), ok_bind]
      rfl

/-- Bytes are read where they are there, and nowhere else. -/
theorem take_eq {n position : Nat} (hwidth : input.data.length < 2 ^ input.width) :
    input.take n position =
      if position + n ≤ input.data.length then
        .ok ((input.data.drop position).take n, position + n)
      else .error (.refused .truncated) := by
  have hget : (get : Scan Nat) position = .ok (position, position) := rfl
  rw [take, state_bind_apply, hget, ok_bind]
  dsimp only
  by_cases h : position + n ≤ input.data.length
  · rw [if_pos ⟨by omega, h⟩, if_pos h, state_bind_apply, bytesAt_eq h]
    rfl
  · rw [if_neg fun hend => h hend.2, if_neg h]
    rfl

/-- Of a program that fits, the address of the last byte is a word, and to be behind that byte is to
be outside the program. -/
theorem checkEntry_eq {origin entry length : UInt16}
    (h : origin.toNat + length.toNat ≤ 0x10000) :
    checkEntry origin entry length =
      refuse (0 < length.toNat &&
        !(origin.toNat ≤ entry.toNat && entry.toNat < origin.toNat + length.toNat))
        (.entryOutside entry) := by
  rw [checkEntry]
  by_cases hsome : 0 < length.toNat
  · have hlength := length.toNat_lt
    have hbehind : minus length.toNat 1 = pure (length.toNat - 1) := if_pos hsome
    have hdistance : fit 16 (length.toNat - 1) = pure (length.toNat - 1) := if_pos (by omega)
    have hlast : fit 16 (origin.toNat + (length.toNat - 1)) =
        pure (origin.toNat + (length.toNat - 1)) := if_pos (by omega)
    have hinside : entry.toNat ≤ origin.toNat + (length.toNat - 1) ↔
        entry.toNat < origin.toNat + length.toNat := by omega
    rw [if_pos hsome, hbehind, pure_bind, hdistance, pure_bind, hlast, pure_bind]
    simp only [hsome, hinside, decide_true, Bool.true_and]
  · rw [if_neg hsome, decide_eq_false hsome, Bool.false_and]
    rfl

section
variable (hwidth : input.data.length < 2 ^ input.width)
include hwidth

theorem follows_take (n : Nat) : input.Follows (input.take n) (takeBytes n) := by
  intro position hposition
  rw [take_eq hwidth, takeBytes_eq, List.length_drop, List.drop_drop]
  by_cases h : position + n ≤ input.data.length
  · rw [if_pos h, if_pos (by omega)]
    exact .ok _ h
  · rw [if_neg h, if_neg (by omega)]
    exact .refused _

theorem follows_byte : input.Follows input.byte takeByte := by
  intro position hposition
  rw [byte, state_bind_apply, take_eq hwidth]
  by_cases h : position + 1 ≤ input.data.length
  · rw [if_pos h, List.drop_eq_getElem_cons h]
    exact .ok _ h
  · rw [if_neg h, List.drop_eq_nil_of_le (by omega)]
    exact .refused _

theorem follows_word : input.Follows input.word takeWord := by
  intro position hposition
  rw [word, state_bind_apply, take_eq hwidth]
  by_cases h : position + 2 ≤ input.data.length
  · rw [if_pos h, List.drop_eq_getElem_cons (by omega), List.drop_eq_getElem_cons h]
    exact .ok _ h
  · rw [if_neg h, takeWord_of_short (by rw [List.length_drop]; omega)]
    exact .refused _

theorem follows_text (n : Nat) : input.Follows (input.text n) (takeText n) := by
  apply (follows_take hwidth n).bind
  intro bs
  cases String.fromUTF8? ⟨bs.toArray⟩ with
  | none => exact .throw _
  | some s => exact .pure s

theorem follows_entry : input.Follows input.entry takeEntry := by
  apply (follows_word hwidth).bind
  intro address
  apply (follows_word hwidth).bind
  intro line
  apply (follows_word hwidth).bind
  intro length
  apply (follows_text hwidth length.toNat).bind
  exact fun text => .pure _

theorem follows_entries (taken : List DebugEntry) (n : Nat) :
    input.Follows (input.entries taken n) (takeEntries taken n) := by
  induction n generalizing taken with
  | zero => exact .pure _
  | succ n ih =>
      apply (follows_entry hwidth).bind
      exact fun e => ih (e :: taken)

theorem follows_label (t : LabelTable) : input.Follows (input.label t) (takeLabel t) := by
  apply (follows_word hwidth).bind
  intro address
  apply (follows_byte hwidth).bind
  intro length
  apply (follows_text hwidth length.toNat).bind
  intro name
  cases t.insert name address with
  | error previous => exact .throw _
  | ok next => exact .pure next

theorem follows_labels (t : LabelTable) (n : Nat) :
    input.Follows (input.labels t n) (takeLabels t n) := by
  induction n generalizing t with
  | zero => exact .pure t
  | succ n ih =>
      apply (follows_label hwidth t).bind
      exact ih

/-- In a program that fits, the address of the last byte is a word. -/
theorem follows_header (hroom : 17 ≤ input.width) : input.Follows input.header takeHeader := by
  apply (follows_byte hwidth).bind
  intro found
  apply (Follows.refuse _ _).bind
  intro _
  apply (follows_word hwidth).bind
  intro origin
  apply (follows_word hwidth).bind
  intro entry
  apply (follows_byte hwidth).bind
  intro flags
  apply (follows_word hwidth).bind
  intro length
  have hstop : fit input.width (origin.toNat + length.toNat) =
      pure (origin.toNat + length.toNat) := by
    have hpow : 2 ^ 17 ≤ 2 ^ input.width := Nat.pow_le_pow_right (by decide) hroom
    have := origin.toNat_lt
    have := length.toNat_lt
    exact if_pos (by omega)
  rw [hstop, pure_bind]
  apply Follows.refuse_bind
  intro hfits
  rw [checkEntry_eq (by simpa using hfits)]
  apply (Follows.refuse _ _).bind
  exact fun _ => .pure _

theorem follows_tables (p : Program) : input.Follows (input.tables p) (takeTables p) := by
  unfold tables takeTables
  cases p.hasDebugInfo with
  | false => exact .pure _
  | true =>
      apply (follows_word hwidth).bind
      intro entryCount
      apply (follows_entries hwidth [] entryCount.toNat).bind
      intro entries
      apply (follows_word hwidth).bind
      intro labelCount
      apply (follows_labels hwidth {} labelCount.toNat).bind
      exact fun labels => .pure _

theorem follows_program (hroom : 17 ≤ input.width) :
    input.Follows input.program takeProgram := by
  rw [takeProgram_eq]
  apply (follows_header hwidth hroom).bind
  intro h
  apply (follows_take hwidth h.length.toNat).bind
  exact fun bytes => follows_tables hwidth (h.program bytes)

theorem signature_eq : input.signature 0 =
    if 3 ≤ input.data.length then .ok (input.data.take 3, 3)
    else .error (.refused .badSignature) := by
  rw [signature, show Executable.signature.length = 3 from rfl, take_eq hwidth, Nat.zero_add,
    List.drop_zero]
  by_cases h : 3 ≤ input.data.length
  · rw [if_pos h, if_pos h]
  · rw [if_neg h, if_neg h]

omit hwidth in
/-- What is left behind a position is what the reader leaves. -/
theorem checkEnd_eq {position : Nat} (h : position ≤ input.data.length) :
    input.checkEnd position =
      if (input.data.drop position).isEmpty then .ok ((), position)
      else .error (.refused (.trailingData (input.data.drop position).length)) := by
  have hget : (get : Scan Nat) position = .ok (position, position) := rfl
  have hminus : minus input.data.length position = pure (input.data.length - position) := if_pos h
  rw [checkEnd, state_bind_apply, hget, ok_bind]
  dsimp only
  rw [hminus, pure_bind, ← List.length_drop]
  cases input.data.drop position with
  | nil => rfl
  | cons b rest => rfl

theorem result_of_signed (hroom : 17 ≤ input.width) {more : List UInt8}
    (hmore : input.data = Executable.signature ++ more) :
    input.result = (decode input.data).mapError .refused := by
  have hlength : 3 ≤ input.data.length := by
    rw [hmore, List.length_append]
    exact Nat.le_add_right 3 _
  have htake : input.data.take 3 = Executable.signature := by
    rw [hmore]
    rfl
  have hdrop : input.data.drop 3 = more := by
    rw [hmore]
    rfl
  have hfollows := follows_program hwidth hroom 3 hlength
  rw [hdrop] at hfollows
  rw [result, scan, state_bind_apply, signature_eq hwidth, if_pos hlength, ok_bind]
  dsimp only
  rw [htake, bne_self_eq_false, show refuse false .badSignature = pure () from rfl, pure_bind,
    state_bind_apply, show decode input.data = _ from hmore ▸ decode_signature more]
  generalize input.program 3 = found at hfollows
  generalize takeProgram more = read at hfollows
  cases hfollows with
  | refused e => rfl
  | ok p hnext =>
      rw [ok_bind, ok_bind, state_bind_apply, checkEnd_eq hnext]
      dsimp only
      split
      · rfl
      · rfl

/-- A scan from the first position gives what the reader gives. -/
theorem result_eq (hroom : 17 ≤ input.width) :
    input.result = (decode input.data).mapError .refused := by
  by_cases hsigned : Executable.signature <+: input.data
  · obtain ⟨more, hmore⟩ := hsigned
    exact result_of_signed hwidth hroom hmore.symm
  · have hunsigned : isSigned input.data = false :=
      eq_false_of_ne_true fun h => hsigned (isSigned_iff.mp h)
    rw [decode_of_not_signed hunsigned, result, scan, state_bind_apply, signature_eq hwidth]
    by_cases hlength : 3 ≤ input.data.length
    · have hother : (input.data.take 3 != Executable.signature) = true := by
        rw [bne_iff_ne]
        intro hsame
        exact hsigned (hsame ▸ List.take_prefix 3 input.data)
      rw [if_pos hlength, ok_bind]
      dsimp only
      rw [hother]
      rfl
    · rw [if_neg hlength]
      rfl

end

end Input

/-- An executable that is accepted ends where it does and nowhere else. Cut anywhere, it has no
signature or is truncated, and what comes behind it is counted as too much. And whatever is in
memory, to scan it at positions of any width that is enough for its length and for the addresses is
to read it: no byte is read but those of the input, and no number ever fails to fit. -/
theorem ends_exactly :
    (∀ (data : List UInt8) (p : Program), decode data = .ok p →
      (∀ cut : List UInt8, cut <+: data → cut ≠ data →
        decode cut = .error (if cut.length < 3 then .badSignature else .truncated)) ∧
      (∀ more : List UInt8, more ≠ [] →
        decode (data ++ more) = .error (.trailingData more.length))) ∧
    (∀ input : Input, 17 ≤ input.width → input.data.length < 2 ^ input.width →
      input.result = (decode input.data).mapError .refused) := by
  refine ⟨fun data p h => ⟨?_, ?_⟩, fun input hroom hwidth => Input.result_eq hwidth hroom⟩
  · exact fun cut => decode_cut h
  · exact fun more => decode_append h

/-- An executable whose debug text is one character of two bytes, cut in that character. -/
theorem ends_in_character :
    let data : List UInt8 := [0x42, 0x33, 0x33, 1, 0x00, 0x40, 0x00, 0x40, 0x02, 1, 0, 0x01,
      1, 0, 0x00, 0x40, 1, 0, 2, 0, 0xC3, 0xA9, 0, 0]
    (∃ p, decode data = .ok p) ∧ decode (data.take 21) = .error .truncated ∧
      decode (data.take 2) = .error .badSignature ∧
      decode (data ++ [7]) = .error (.trailingData 1) ∧
      Input.result ⟨data.take 21, 32⟩ = .error (.refused .truncated) := by
  intro data
  obtain ⟨p, hp⟩ : ∃ p, decode data = .ok p := by
    cases h : decode data with
    | ok p => exact ⟨p, rfl⟩
    | error e =>
        have hok : (decode data).isOk = true := by decide +kernel
        rw [h] at hok
        cases hok
  obtain ⟨hcut, hmore⟩ := ends_exactly.1 data p hp
  have htruncated : decode (data.take 21) = .error .truncated :=
    hcut (data.take 21) (List.take_prefix 21 data) (by decide)
  refine ⟨⟨p, hp⟩, htruncated, ?_, hmore [7] (by decide), ?_⟩
  · exact hcut (data.take 2) (List.take_prefix 2 data) (by decide)
  · rw [ends_exactly.2 ⟨data.take 21, 32⟩ (by decide) (by decide), htruncated]
    rfl

end B33.Executable
