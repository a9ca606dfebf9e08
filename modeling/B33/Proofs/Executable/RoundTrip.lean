import B33.Proofs.Except
import B33.Proofs.NameTable
import B33.Proofs.Register
import B33.Proofs.Executable.Clip

/-!
# Reading what was written

Each reader takes what its writer wrote off the front of the bytes, whatever comes after. So the
tables of an executable are read entry by entry, and only three things can be wrong with a program
that was written: it does not fit at its origin, it is entered outside its bytes, or two of its names
are the same once they are cut.
-/
namespace B33.Executable
open NameTable

variable {rest : List UInt8}

theorem splitOnto?_append (taken bs : List UInt8) :
    splitOnto? taken bs.length (bs ++ rest) = some (taken.reverse ++ bs, rest) := by
  induction bs generalizing taken with
  | nil => simp [splitOnto?]
  | cons b bs ih =>
      rw [List.length_cons, List.cons_append, splitOnto?, ih, List.reverse_cons, List.append_assoc,
        List.singleton_append]

theorem takeBytes_append (bs : List UInt8) : takeBytes bs.length (bs ++ rest) = .ok (bs, rest) := by
  rw [takeBytes, splitOnto?_append, List.reverse_nil, List.nil_append]

theorem takeWord_append (w : UInt16) : takeWord (wordBytes w ++ rest) = .ok (w, rest) := by
  simp [wordBytes, takeWord]

theorem takeText_append (s : String) :
    takeText (textBytes s).length (textBytes s ++ rest) = .ok (s, rest) := by
  rw [takeText, state_bind_apply, takeBytes_append, ok_bind]
  simp only [fromUTF8?_textBytes]
  rfl

/-- A debug entry as an executable holds it. -/
def cutEntry (e : DebugEntry) : DebugEntry := { e with text := clip 0xFFFF e.text }

theorem takeEntry_append (e : DebugEntry) :
    takeEntry (entryBytes e ++ rest) = .ok (cutEntry e, rest) := by
  have hlength : (UInt16.ofNat (textBytes (clip 0xFFFF e.text)).length).toNat =
      (textBytes (clip 0xFFFF e.text)).length := toNat_ofNat_of_le (length_clip_le 0xFFFF e.text)
  simp only [entryBytes, takeEntry, List.append_assoc, state_bind_apply, takeWord_append, ok_bind,
    hlength, takeText_append]
  rfl

theorem takeEntries_append (taken es : List DebugEntry) :
    takeEntries taken es.length (es.flatMap entryBytes ++ rest) =
      .ok (taken.reverse ++ es.map cutEntry, rest) := by
  induction es generalizing taken with
  | nil =>
      rw [List.map_nil, List.append_nil]
      rfl
  | cons e es ih =>
      rw [List.length_cons, List.flatMap_cons, List.append_assoc, takeEntries, state_bind_apply,
        takeEntry_append, ok_bind]
      dsimp only
      rw [ih, List.reverse_cons, List.append_assoc, List.map_cons, List.singleton_append]

/-- A label as an executable holds it. -/
def cutLabel (l : String × UInt16) : String × UInt16 := (clip 0xFF l.1, l.2)

theorem takeLabel_append (t : LabelTable) (l : String × UInt16) :
    takeLabel t (labelBytes l ++ rest) =
      match t.insert (clip 0xFF l.1) l.2 with
      | .ok t' => .ok (t', rest)
      | .error _ => .error (.duplicateLabel (clip 0xFF l.1)) := by
  have hlength : (UInt8.ofNat (textBytes (clip 0xFF l.1)).length).toNat =
      (textBytes (clip 0xFF l.1)).length := by
    have := length_clip_le 0xFF l.1
    rw [UInt8.toNat_ofNat']
    omega
  have hbyte (b : UInt8) (bs : List UInt8) : takeByte (b :: bs) = .ok (b, bs) := rfl
  simp only [labelBytes, takeLabel, List.append_assoc, List.cons_append, state_bind_apply,
    takeWord_append, ok_bind, hbyte, hlength, takeText_append]
  cases t.insert (clip 0xFF l.1) l.2 with
  | error previous => rfl
  | ok t' => rfl

/-- The names of labels, without the difference between cases. -/
def foldedNames (ls : List (String × UInt16)) : List String := ls.map fun l => foldCase l.1

theorem get?_eq_none_iff_foldedNames (t : LabelTable) (name : String) :
    t.get? name = none ↔ foldCase name ∉ foldedNames t.toList :=
  t.get?_eq_none_iff name

theorem foldedNames_append (ls ls' : List (String × UInt16)) :
    foldedNames (ls ++ ls') = foldedNames ls ++ foldedNames ls' := List.map_append

theorem takeLabels_append {t : LabelTable} {ls : List (String × UInt16)}
    (h : (foldedNames (t.toList ++ ls.map cutLabel)).Nodup) :
    ∃ t', takeLabels t ls.length (ls.flatMap labelBytes ++ rest) = .ok (t', rest) ∧
      t'.toList = t.toList ++ ls.map cutLabel := by
  induction ls generalizing t with
  | nil => exact ⟨t, rfl, by simp⟩
  | cons l ls ih =>
      rw [List.map_cons, List.append_cons] at h
      have hfresh : t.get? (clip 0xFF l.1) = none := by
        rw [get?_eq_none_iff_foldedNames]
        intro hmem
        rw [foldedNames_append, foldedNames_append] at h
        have hsnoc := (List.nodup_append.mp h).1
        exact (List.nodup_append.mp hsnoc).2.2 _ hmem _ List.mem_cons_self rfl
      obtain ⟨next, hnext, hlist⟩ := insert_eq_ok_of_fresh l.2 hfresh
      obtain ⟨t', ht', heq⟩ := ih (t := next) (by rwa [hlist])
      refine ⟨t', ?_, ?_⟩
      · rw [List.length_cons, List.flatMap_cons, List.append_assoc, takeLabels, state_bind_apply,
          takeLabel_append, hnext]
        exact ht'
      · rw [heq, hlist, List.map_cons, List.append_assoc]
        rfl

/-- A name is the first in a list of labels that is there before. -/
def FirstRepeat (ls : List (String × UInt16)) (name : String) : Prop :=
  ∃ before address after, ls = before ++ (name, address) :: after ∧
    (foldedNames before).Nodup ∧ foldCase name ∈ foldedNames before

theorem takeLabels_append_error {t : LabelTable} {ls : List (String × UInt16)}
    (ht : (foldedNames t.toList).Nodup)
    (h : ¬(foldedNames (t.toList ++ ls.map cutLabel)).Nodup) :
    ∃ name, FirstRepeat (t.toList ++ ls.map cutLabel) name ∧
      takeLabels t ls.length (ls.flatMap labelBytes ++ rest) = .error (.duplicateLabel name) := by
  induction ls generalizing t with
  | nil =>
      rw [List.map_nil, List.append_nil] at h
      exact (h ht).elim
  | cons l ls ih =>
      rw [List.length_cons, List.flatMap_cons, List.append_assoc, takeLabels, state_bind_apply,
        takeLabel_append]
      by_cases hfresh : t.get? (clip 0xFF l.1) = none
      · obtain ⟨next, hnext, hlist⟩ := insert_eq_ok_of_fresh l.2 hfresh
        have hmap : t.toList ++ (l :: ls).map cutLabel = next.toList ++ ls.map cutLabel := by
          rw [hlist, List.map_cons, List.append_cons]
          rfl
        rw [hmap] at h ⊢
        rw [hnext]
        refine ih ?_ h
        rw [hlist, foldedNames_append, List.nodup_append]
        rw [get?_eq_none_iff_foldedNames] at hfresh
        refine ⟨ht, List.nodup_singleton _, ?_⟩
        intro a ha b hb hab
        rw [hab, List.mem_singleton.mp hb] at ha
        exact hfresh ha
      · obtain ⟨previous, hprevious⟩ := insert_eq_error_of_defined l.2 hfresh
        rw [hprevious]
        refine ⟨clip 0xFF l.1, ⟨t.toList, l.2, ls.map cutLabel, rfl, ht, ?_⟩, rfl⟩
        rw [get?_eq_none_iff_foldedNames, not_not] at hfresh
        exact hfresh

theorem countWord_eq_ok_iff {field : CountedField} {n : Nat} {w : UInt16} :
    countWord field n = .ok w ↔ n ≤ 0xFFFF ∧ w = UInt16.ofNat n := by
  unfold countWord
  by_cases h : n < 0x10000
  · rw [if_pos h, Except.ok.injEq, eq_comm]
    exact (and_iff_right (by omega)).symm
  · rw [if_neg h]
    simp only [reduceCtorEq, false_iff, not_and]
    omega

/-- Whether every count of a program fits its field. -/
def Countable (p : Program) : Prop :=
  p.bytes.length ≤ 0xFFFF ∧
    (p.hasDebugInfo = true → p.debugEntries.length ≤ 0xFFFF ∧ p.labels.size ≤ 0xFFFF)

/-- The tables of a program whose counts fit. -/
def tables (p : Program) : List UInt8 :=
  if p.hasDebugInfo then
    wordBytes (UInt16.ofNat p.debugEntries.length) ++ (p.debugEntries.flatMap entryBytes ++
      (wordBytes (UInt16.ofNat p.labels.size) ++ p.labels.toList.flatMap labelBytes))
  else []

/-- What stands before the bytes of a program, behind the signature. -/
def header (p : Program) (more : List UInt8) : List UInt8 :=
  version :: (wordBytes p.origin ++ (wordBytes p.entry ++ (flagsByte p ::
    (wordBytes (UInt16.ofNat p.bytes.length) ++ more))))

theorem debugTables_eq_ok_iff {p : Program} {bs : List UInt8} :
    debugTables p = .ok bs ↔
      (p.hasDebugInfo = true → p.debugEntries.length ≤ 0xFFFF ∧ p.labels.size ≤ 0xFFFF) ∧
      bs = tables p := by
  unfold debugTables tables
  cases p.hasDebugInfo with
  | false =>
      rw [if_neg Bool.false_ne_true, if_neg Bool.false_ne_true, pure_eq_ok_iff, eq_comm]
      simp
  | true =>
      simp only [if_true, bind_eq_ok_iff, countWord_eq_ok_iff, pure_eq_ok_iff, forall_const]
      constructor
      · rintro ⟨_, ⟨h₁, rfl⟩, _, ⟨h₂, rfl⟩, rfl⟩
        exact ⟨⟨h₁, h₂⟩, by simp only [List.append_assoc]⟩
      · rintro ⟨⟨h₁, h₂⟩, rfl⟩
        exact ⟨_, ⟨h₁, rfl⟩, _, ⟨h₂, rfl⟩, by simp only [List.append_assoc]⟩

theorem encode_eq_ok_iff {p : Program} {data : List UInt8} :
    encode p = .ok data ↔
      Countable p ∧ data = signature ++ header p (p.bytes ++ tables p) := by
  simp only [encode, bind_eq_ok_iff, countWord_eq_ok_iff, debugTables_eq_ok_iff, pure_eq_ok_iff]
  constructor
  · rintro ⟨_, ⟨h₁, rfl⟩, _, ⟨h₂, rfl⟩, rfl⟩
    exact ⟨⟨h₁, h₂⟩, by simp only [header, List.append_assoc, List.cons_append]⟩
  · rintro ⟨⟨h₁, h₂⟩, rfl⟩
    exact ⟨_, ⟨h₁, rfl⟩, _, ⟨h₂, rfl⟩,
      by simp only [header, List.append_assoc, List.cons_append]⟩

theorem flagsByte_debug (p : Program) : (flagsByte p &&& debugFlag != 0) = p.hasDebugInfo := by
  unfold flagsByte
  cases p.dualMonitor <;> cases p.hasDebugInfo <;> rfl

theorem flagsByte_dualMonitor (p : Program) :
    (flagsByte p &&& dualMonitorFlag != 0) = p.dualMonitor := by
  unfold flagsByte
  cases p.dualMonitor <;> cases p.hasDebugInfo <;> rfl

/-- Whether execution starts inside the bytes, if there are any. -/
def Entered (p : Program) : Prop :=
  p.bytes.length = 0 ∨ p.origin.toNat ≤ p.entry.toNat ∧ p.entry.toNat < p.endAddress

instance (p : Program) : Decidable (Entered p) :=
  inferInstanceAs (Decidable (_ = 0 ∨ _ ≤ _ ∧ _ < _))

theorem entered_eq (p : Program) :
    (0 < p.bytes.length &&
      !(p.origin.toNat ≤ p.entry.toNat && p.entry.toNat < p.origin.toNat + p.bytes.length)) =
      !decide (Entered p) := by
  rw [Bool.eq_iff_iff]
  simp only [Bool.and_eq_true, Bool.not_eq_true', Bool.and_eq_false_iff, decide_eq_true_eq,
    decide_eq_false_iff_not]
  unfold Entered Program.endAddress
  omega

/-- The reader of what is behind the bytes of a program. -/
def takeTables (p : Program) : Reader Program :=
  let program : Program :=
    { bytes := p.bytes, origin := p.origin, entry := p.entry, kind := .executable,
      dualMonitor := p.dualMonitor }
  if p.hasDebugInfo then do
    let debugEntries ← takeEntries [] (← takeWord).toNat
    let labels ← takeLabels {} (← takeWord).toNat
    return { program with hasDebugInfo := true, debugEntries, labels }
  else return program

theorem takeProgram_header {p : Program} {more : List UInt8} (h : p.bytes.length ≤ 0xFFFF) :
    takeProgram (header p (p.bytes ++ more)) =
      if 0x10000 < p.endAddress then .error (.originOutOfRange p.origin p.bytes.length)
      else if Entered p then takeTables p more else .error (.entryOutside p.entry) := by
  have hlength : (UInt16.ofNat p.bytes.length).toNat = p.bytes.length :=
    toNat_ofNat_of_le (by omega)
  have hbyte (b : UInt8) (bs : List UInt8) : takeByte (b :: bs) = .ok (b, bs) := rfl
  unfold takeProgram header
  simp only [state_bind_apply, state_guard_apply, takeWord_append, ok_bind, hbyte, hlength,
    takeBytes_append, bne_self_eq_false, Bool.false_eq_true, if_false, flagsByte_debug,
    flagsByte_dualMonitor, entered_eq]
  by_cases he : Entered p
  · simp only [he, decide_true, Bool.not_true, Bool.false_eq_true, if_false, if_true]
    rfl
  · simp only [he, decide_false, Bool.not_false, if_true, if_false]
    rfl

theorem decode_signature (bs : List UInt8) :
    decode (signature ++ bs) = takeProgram bs >>= fun r =>
      if r.2.isEmpty then .ok r.1 else .error (.trailingData r.2.length) := rfl

/-- What an executable keeps of the tables of a program. -/
structure Kept (p : Program) (entries : List DebugEntry) (labels : List (String × UInt16)) :
    Prop where
  entries : List.Forall₂
    (fun e e' => e'.address = e.address ∧ e'.line = e.line ∧ LongestFit 0xFFFF e.text e'.text)
    (if p.hasDebugInfo then p.debugEntries else []) entries
  labels : List.Forall₂ (fun l l' => LongestFit 0xFF l.1 l'.1 ∧ l'.2 = l.2)
    (if p.hasDebugInfo then p.labels.toList else []) labels

theorem kept_cut (p : Program) :
    Kept p ((if p.hasDebugInfo then p.debugEntries else []).map cutEntry)
      ((if p.hasDebugInfo then p.labels.toList else []).map cutLabel) := by
  refine ⟨?_, ?_⟩
  · rw [List.forall₂_map_right_iff, List.forall₂_same]
    exact fun e _ => ⟨rfl, rfl, longestFit_clip _ _⟩
  · rw [List.forall₂_map_right_iff, List.forall₂_same]
    exact fun l _ => ⟨longestFit_clip _ _, rfl⟩

/-- A program is another one with these tables, in the form of an executable. -/
structure Carries (p q : Program) (entries : List DebugEntry) (labels : List (String × UInt16)) :
    Prop where
  bytes_eq : q.bytes = p.bytes
  origin_eq : q.origin = p.origin
  entry_eq : q.entry = p.entry
  dualMonitor_eq : q.dualMonitor = p.dualMonitor
  hasDebugInfo_eq : q.hasDebugInfo = p.hasDebugInfo
  kind_eq : q.kind = .executable
  debugEntries_eq : q.debugEntries = entries
  labels_eq : q.labels.toList = labels

section Tables
variable {p : Program} (hp : Countable p)
include hp

theorem takeTables_of_debug (hd : p.hasDebugInfo = true) :
    takeTables p (tables p) = takeLabels {} p.labels.toList.length
        (p.labels.toList.flatMap labelBytes) >>= fun r =>
      .ok ({ p with
        kind := .executable, debugEntries := p.debugEntries.map cutEntry, labels := r.1 }, r.2) := by
  obtain ⟨hentries, hlabels⟩ := hp.2 hd
  have h₁ : (UInt16.ofNat p.debugEntries.length).toNat = p.debugEntries.length :=
    toNat_ofNat_of_le (by omega)
  have h₂ : (UInt16.ofNat p.labels.size).toNat = p.labels.toList.length :=
    toNat_ofNat_of_le (by omega)
  unfold takeTables tables
  simp only [hd, if_true, state_bind_apply, takeWord_append, ok_bind, h₁, h₂, takeEntries_append,
    List.reverse_nil, List.nil_append]
  rfl

theorem takeTables_eq_ok
    (h : (foldedNames ((if p.hasDebugInfo then p.labels.toList else []).map cutLabel)).Nodup) :
    ∃ q, takeTables p (tables p) = .ok (q, []) ∧
      Carries p q ((if p.hasDebugInfo then p.debugEntries else []).map cutEntry)
        ((if p.hasDebugInfo then p.labels.toList else []).map cutLabel) := by
  cases hd : p.hasDebugInfo with
  | false =>
      refine ⟨_, by rw [takeTables, tables, hd]; rfl, ?_⟩
      constructor <;> first | rfl | exact hd.symm
  | true =>
      rw [hd, if_pos rfl] at h
      obtain ⟨t, ht, hlist⟩ := @takeLabels_append [] {} p.labels.toList h
      rw [List.append_nil] at ht
      rw [takeTables_of_debug hp hd, ht]
      refine ⟨_, rfl, ?_⟩
      constructor <;> first | rfl | exact hlist

theorem takeTables_eq_error
    (h : ¬(foldedNames ((if p.hasDebugInfo then p.labels.toList else []).map cutLabel)).Nodup) :
    ∃ name, FirstRepeat ((if p.hasDebugInfo then p.labels.toList else []).map cutLabel) name ∧
      takeTables p (tables p) = .error (.duplicateLabel name) := by
  cases hd : p.hasDebugInfo with
  | false =>
      rw [hd] at h
      exact (h List.nodup_nil).elim
  | true =>
      rw [hd, if_pos rfl] at h
      obtain ⟨name, hname, ht⟩ :=
        @takeLabels_append_error [] {} p.labels.toList List.nodup_nil h
      rw [List.append_nil] at ht
      rw [takeTables_of_debug hp hd, ht]
      exact ⟨name, hname, rfl⟩

end Tables

/-- A program is written unless a count is too large, and what was written is read again with the
same bytes and addresses and with the tables as far as they were kept, unless the bytes do not fit,
execution starts elsewhere, or two names were cut to the same name. -/
theorem decode_encode (p : Program) :
    ((∃ e, encode p = .error e) ↔ 0xFFFF < p.bytes.length ∨
      p.hasDebugInfo = true ∧ (0xFFFF < p.debugEntries.length ∨ 0xFFFF < p.labels.size)) ∧
    ∀ data, encode p = .ok data → ∃ entries labels, Kept p entries labels ∧
      ((∃ q, decode data = .ok q) ↔
        p.endAddress ≤ 0x10000 ∧ Entered p ∧ (foldedNames labels).Nodup) ∧
      (∀ q, decode data = .ok q → Carries p q entries labels) ∧
      (0x10000 < p.endAddress →
        decode data = .error (.originOutOfRange p.origin p.bytes.length)) ∧
      (p.endAddress ≤ 0x10000 → ¬Entered p → decode data = .error (.entryOutside p.entry)) ∧
      (p.endAddress ≤ 0x10000 → Entered p → ¬(foldedNames labels).Nodup →
        ∃ name, FirstRepeat labels name ∧ decode data = .error (.duplicateLabel name)) := by
  refine ⟨?_, ?_⟩
  · have hcount : (∃ e, encode p = .error e) ↔ ¬Countable p := by
      rw [← not_iff_not, not_not, not_exists]
      constructor
      · intro h
        cases hd : encode p with
        | error e => exact (h e hd).elim
        | ok data => exact (encode_eq_ok_iff.mp hd).1
      · intro h e he
        rw [encode_eq_ok_iff.mpr ⟨h, rfl⟩] at he
        cases he
    rw [hcount]
    unfold Countable
    cases p.hasDebugInfo with
    | false => simp
    | true =>
        simp only [forall_const, true_and]
        omega
  · intro data hdata
    obtain ⟨hp, rfl⟩ := encode_eq_ok_iff.mp hdata
    refine ⟨_, _, kept_cut p, ?_⟩
    rw [decode_signature, takeProgram_header hp.1]
    by_cases hend : 0x10000 < p.endAddress
    · rw [if_pos hend]
      refine ⟨?_, ?_, fun _ => rfl, fun h => ?_, fun h => ?_⟩
      · simp
        omega
      · simp
      · omega
      · omega
    rw [if_neg hend]
    by_cases he : Entered p
    · rw [if_pos he]
      by_cases hn :
          (foldedNames ((if p.hasDebugInfo then p.labels.toList else []).map cutLabel)).Nodup
      · obtain ⟨q, hq, hc⟩ := takeTables_eq_ok hp hn
        rw [hq]
        refine ⟨iff_of_true ⟨q, rfl⟩ ⟨by omega, he, hn⟩, ?_, fun h => (hend h).elim,
          fun _ h => (h he).elim, fun _ _ h => (h hn).elim⟩
        intro q' hq'
        cases hq'
        exact hc
      · obtain ⟨name, hname, ht⟩ := takeTables_eq_error hp hn
        rw [ht]
        refine ⟨?_, ?_, fun h => (hend h).elim, fun _ h => (h he).elim,
          fun _ _ _ => ⟨name, hname, rfl⟩⟩
        · simp [hn]
        · simp
    · rw [if_neg he]
      refine ⟨?_, ?_, fun h => (hend h).elim, fun _ _ => rfl, fun _ h => (he h).elim⟩
      · simp [he]
      · simp

/-- A byte at the last address, with a label and its source line. -/
def lastByte : Program where
  bytes := [0x01]
  origin := 0xFFFF
  entry := 0xFFFF
  labels := NameTable.push {} "last" 0xFFFF (get?_empty _)
  hasDebugInfo := true
  debugEntries := [{ address := 0xFFFF, line := 1, text := "last CLRA" }]

theorem decode_encode_lastByte :
    ∃ data q, encode lastByte = .ok data ∧ decode data = .ok q ∧ q.bytes = [0x01] := by
  obtain ⟨hfails, hreads⟩ := decode_encode lastByte
  cases hdata : encode lastByte with
  | error e =>
      have hsize : lastByte.labels.size = 1 := rfl
      have := hfails.mp ⟨e, hdata⟩
      rw [hsize] at this
      simp [lastByte] at this
  | ok data =>
      obtain ⟨entries, labels, hkept, hok, hcarries, -⟩ := hreads data hdata
      have hlength : labels.length = 1 := hkept.labels.length_eq.symm
      have hnodup : (foldedNames labels).Nodup := by
        obtain ⟨l, rfl⟩ := List.length_eq_one_iff.mp hlength
        exact List.nodup_singleton _
      obtain ⟨q, hq⟩ := hok.mpr ⟨by decide, by decide, hnodup⟩
      exact ⟨data, q, rfl, hq, (hcarries q hq).bytes_eq⟩

end B33.Executable
