import B33.Proofs.Executable.Parts

/-!
# Writing what was read

A reader loses nothing. What it takes off the front of the bytes is what the writer writes of its
result, so the texts it gives are never cut again, the tables keep their order and the counts come
out as they were. Only the flags that mean nothing are not read, and so they are not written.
-/
namespace B33.Executable

variable {data rest : List UInt8}

theorem takeByte_eq_ok {b : UInt8} (h : takeByte data = .ok (b, rest)) : data = b :: rest := by
  cases data with
  | nil => cases h
  | cons first more =>
      cases h
      rfl

theorem takeWord_eq_ok {w : UInt16} (h : takeWord data = .ok (w, rest)) :
    data = wordBytes w ++ rest := by
  match data, h with
  | low :: high :: more, h =>
      cases h
      simp [wordBytes]

theorem splitOnto?_eq (taken data : List UInt8) (n : Nat) :
    splitOnto? taken n data =
      if n ≤ data.length then some (taken.reverse ++ data.take n, data.drop n) else none := by
  induction n generalizing taken data with
  | zero => simp [splitOnto?]
  | succ n ih =>
      cases data with
      | nil => rfl
      | cons b more => simp [splitOnto?, ih]

/-- Bytes are taken if there are enough. -/
theorem takeBytes_eq (n : Nat) (data : List UInt8) :
    takeBytes n data =
      if n ≤ data.length then .ok (data.take n, data.drop n) else .error .truncated := by
  rw [takeBytes, splitOnto?_eq]
  by_cases h : n ≤ data.length
  · rw [if_pos h, if_pos h]
    rfl
  · rw [if_neg h, if_neg h]

theorem takeBytes_eq_ok {n : Nat} {bs : List UInt8} (h : takeBytes n data = .ok (bs, rest)) :
    bs.length = n ∧ data = bs ++ rest := by
  rw [takeBytes_eq] at h
  split at h
  · next hlength =>
    cases h
    exact ⟨List.length_take_of_le hlength, (List.take_append_drop n data).symm⟩
  · cases h

theorem takeText_eq_ok {n : Nat} {s : String} (h : takeText n data = .ok (s, rest)) :
    (textBytes s).length = n ∧ data = textBytes s ++ rest := by
  obtain ⟨bs, more, hbytes, htext⟩ := state_bind_eq_ok_iff.mp h
  obtain ⟨hlength, hdata⟩ := takeBytes_eq_ok hbytes
  cases hutf8 : String.fromUTF8? ⟨bs.toArray⟩ with
  | none =>
      rw [hutf8] at htext
      cases htext
  | some text =>
      rw [hutf8] at htext
      cases htext
      rw [textBytes_of_fromUTF8? hutf8]
      exact ⟨hlength, hdata⟩

theorem takeEntry_eq_ok {e : DebugEntry} (h : takeEntry data = .ok (e, rest)) :
    data = entryBytes e ++ rest := by
  obtain ⟨address, data₁, haddress, h⟩ := state_bind_eq_ok_iff.mp h
  obtain ⟨line, data₂, hline, h⟩ := state_bind_eq_ok_iff.mp h
  obtain ⟨length, data₃, hlength, h⟩ := state_bind_eq_ok_iff.mp h
  obtain ⟨text, data₄, htext, h⟩ := state_bind_eq_ok_iff.mp h
  cases h
  obtain ⟨hsize, htext⟩ := takeText_eq_ok htext
  have hclip : clip 0xFFFF text = text := clip_of_length_le (by have := length.toNat_lt; omega)
  rw [takeWord_eq_ok haddress, takeWord_eq_ok hline, takeWord_eq_ok hlength, htext]
  simp [entryBytes, hclip, hsize]

theorem takeEntries_eq_ok {n : Nat} {taken es : List DebugEntry}
    (h : takeEntries taken n data = .ok (es, rest)) :
    ∃ new, es = taken.reverse ++ new ∧ new.length = n ∧ data = new.flatMap entryBytes ++ rest := by
  induction n generalizing taken data with
  | zero =>
      cases h
      exact ⟨[], (List.append_nil _).symm, rfl, rfl⟩
  | succ n ih =>
      obtain ⟨e, more, he, hrest⟩ := state_bind_eq_ok_iff.mp h
      obtain ⟨new, hes, hlength, hmore⟩ := ih hrest
      refine ⟨e :: new, ?_, congrArg (· + 1) hlength, ?_⟩
      · rw [hes, List.reverse_cons, List.append_assoc, List.singleton_append]
      · rw [takeEntry_eq_ok he, hmore, List.flatMap_cons, List.append_assoc]

/-- A label that is read is the next in its table, as it is spelt. -/
theorem takeLabel_eq_ok {t after : LabelTable} (h : takeLabel t data = .ok (after, rest)) :
    ∃ l, after.toList = t.toList ++ [l] ∧ data = labelBytes l ++ rest := by
  obtain ⟨address, data₁, haddress, h⟩ := state_bind_eq_ok_iff.mp h
  obtain ⟨length, data₂, hlength, h⟩ := state_bind_eq_ok_iff.mp h
  obtain ⟨name, data₃, hname, h⟩ := state_bind_eq_ok_iff.mp h
  obtain ⟨hsize, hname⟩ := takeText_eq_ok hname
  have hclip : clip 0xFF name = name := clip_of_length_le (by have := length.toNat_lt; omega)
  cases hinsert : t.insert name address with
  | error previous =>
      simp only [hinsert] at h
      cases h
  | ok next =>
      simp only [hinsert] at h
      cases h
      refine ⟨(name, address), NameTable.toList_of_insert hinsert, ?_⟩
      rw [takeWord_eq_ok haddress, takeByte_eq_ok hlength, hname]
      simp [labelBytes, hclip, hsize]

theorem takeLabels_eq_ok {n : Nat} {t after : LabelTable}
    (h : takeLabels t n data = .ok (after, rest)) :
    ∃ new, after.toList = t.toList ++ new ∧ new.length = n ∧
      data = new.flatMap labelBytes ++ rest := by
  induction n generalizing t data with
  | zero =>
      cases h
      exact ⟨[], (List.append_nil _).symm, rfl, rfl⟩
  | succ n ih =>
      obtain ⟨next, more, hl, hrest⟩ := state_bind_eq_ok_iff.mp h
      obtain ⟨l, hnext, hdata⟩ := takeLabel_eq_ok hl
      obtain ⟨new, hafter, hlength, hmore⟩ := ih hrest
      refine ⟨l :: new, ?_, congrArg (· + 1) hlength, ?_⟩
      · rw [hafter, hnext, List.append_assoc, List.singleton_append]
      · rw [hdata, hmore, List.flatMap_cons, List.append_assoc]

theorem refuseIf_eq_ok {refused : Bool} {e : FormatError} {u : Unit}
    (h : refuseIf refused e data = .ok (u, rest)) : refused = false ∧ data = rest := by
  cases refused with
  | true => cases h
  | false =>
      cases h
      exact ⟨rfl, rfl⟩

theorem takeHeader_eq_ok {hd : Header} (h : takeHeader data = .ok (hd, rest)) :
    data = version :: (wordBytes hd.origin ++ (wordBytes hd.entry ++
      (hd.flags :: (wordBytes hd.length ++ rest)))) := by
  obtain ⟨found, data₁, hfound, h⟩ := state_bind_eq_ok_iff.mp h
  obtain ⟨_, data₂, hversion, h⟩ := state_bind_eq_ok_iff.mp h
  obtain ⟨origin, data₃, horigin, h⟩ := state_bind_eq_ok_iff.mp h
  obtain ⟨entry, data₄, hentry, h⟩ := state_bind_eq_ok_iff.mp h
  obtain ⟨flags, data₅, hflags, h⟩ := state_bind_eq_ok_iff.mp h
  obtain ⟨length, data₆, hlength, h⟩ := state_bind_eq_ok_iff.mp h
  obtain ⟨_, data₇, hfits, h⟩ := state_bind_eq_ok_iff.mp h
  obtain ⟨_, data₈, hentered, h⟩ := state_bind_eq_ok_iff.mp h
  cases h
  obtain ⟨hsame, hdata₁⟩ := refuseIf_eq_ok hversion
  obtain rfl : found = version := by simpa using hsame
  rw [takeByte_eq_ok hfound, hdata₁, takeWord_eq_ok horigin, takeWord_eq_ok hentry,
    takeByte_eq_ok hflags, takeWord_eq_ok hlength, (refuseIf_eq_ok hfits).2,
    (refuseIf_eq_ok hentered).2]

/-- The tables that are read are those that are written, and their counts fit. -/
theorem takeTables_carries {p q : Program} (h : takeTables p data = .ok (q, rest)) :
    Carries p q q.debugEntries q.labels.toList ∧ data = tables q ++ rest ∧
      (q.hasDebugInfo = true → q.debugEntries.length ≤ 0xFFFF ∧ q.labels.size ≤ 0xFFFF) := by
  unfold takeTables at h
  cases hd : p.hasDebugInfo with
  | false =>
      simp only [hd, Bool.false_eq_true, if_false] at h
      cases h
      exact ⟨⟨rfl, rfl, rfl, rfl, hd.symm, rfl, rfl, rfl⟩, rfl,
        fun hdebug => absurd hdebug Bool.false_ne_true⟩
  | true =>
      simp only [hd, if_true] at h
      obtain ⟨entryCount, data₁, hentryCount, h⟩ := state_bind_eq_ok_iff.mp h
      obtain ⟨entries, data₂, hentries, h⟩ := state_bind_eq_ok_iff.mp h
      obtain ⟨labelCount, data₃, hlabelCount, h⟩ := state_bind_eq_ok_iff.mp h
      obtain ⟨labels, data₄, hlabels, h⟩ := state_bind_eq_ok_iff.mp h
      cases h
      obtain ⟨newEntries, hnewEntries, hentryLength, hentryData⟩ := takeEntries_eq_ok hentries
      obtain ⟨newLabels, hnewLabels, hlabelLength, hlabelData⟩ := takeLabels_eq_ok hlabels
      obtain rfl : entries = newEntries := hnewEntries
      obtain rfl : labels.toList = newLabels := hnewLabels
      have hsize : labels.size = labelCount.toNat := hlabelLength
      refine ⟨⟨rfl, rfl, rfl, rfl, hd.symm, rfl, rfl, rfl⟩, ?_, fun _ => ?_⟩
      · rw [takeWord_eq_ok hentryCount, hentryData, takeWord_eq_ok hlabelCount, hlabelData]
        simp [tables, hentryLength, hsize]
      · have hentryCount := entryCount.toNat_lt
        have hlabelCount := labelCount.toNat_lt
        constructor
        · change entries.length ≤ 0xFFFF
          omega
        · change labels.size ≤ 0xFFFF
          omega

/-- An executable without the flags that mean nothing. -/
def withPlainFlags (data : List UInt8) : List UInt8 := data.modify 8 (· &&& 0x03)

theorem flagsByte_program (hd : Header) (bytes : List UInt8) :
    flagsByte (hd.program bytes) = hd.flags &&& 0x03 := by
  have whole : ∀ n < 256,
      ((if UInt8.ofNat n &&& dualMonitorFlag != 0 then dualMonitorFlag else 0) |||
        (if UInt8.ofNat n &&& debugFlag != 0 then debugFlag else 0)) = UInt8.ofNat n &&& 0x03 := by
    decide +kernel
  have hflags := whole hd.flags.toNat hd.flags.toNat_lt
  rw [UInt8.ofNat_toNat] at hflags
  exact hflags

/-- A header that is read is the one that is written before the program, apart from the flags that
mean nothing. -/
theorem takeProgram_eq_ok {p : Program} (h : takeProgram data = .ok (p, rest)) :
    p.kind = .executable ∧ Countable p ∧
      withPlainFlags (signature ++ data) =
        signature ++ header p (p.bytes ++ (tables p ++ rest)) := by
  rw [takeProgram_eq] at h
  obtain ⟨hd, data₁, hheader, h⟩ := state_bind_eq_ok_iff.mp h
  obtain ⟨bytes, data₂, hbytes, h⟩ := state_bind_eq_ok_iff.mp h
  obtain ⟨hlength, hbytes⟩ := takeBytes_eq_ok hbytes
  obtain ⟨hcarries, htables, hcounts⟩ := takeTables_carries h
  have hsame : p.bytes = bytes := hcarries.bytes_eq
  have hflags : flagsByte p = hd.flags &&& 0x03 := by
    rw [← flagsByte_program hd bytes, flagsByte, flagsByte, hcarries.dualMonitor_eq,
      hcarries.hasDebugInfo_eq]
  have hcount : UInt16.ofNat p.bytes.length = hd.length := by
    rw [hsame, hlength, UInt16.ofNat_toNat]
  refine ⟨hcarries.kind_eq, ⟨?_, hcounts⟩, ?_⟩
  · have := hd.length.toNat_lt
    rw [hsame]
    omega
  · rw [takeHeader_eq_ok hheader, hbytes, htables, header, hflags, hcount, hsame,
      hcarries.origin_eq, hcarries.entry_eq]
    rfl

/-- An executable that is accepted is written again as it was, apart from the flags that mean
nothing. -/
theorem encode_decode {p : Program} (h : decode data = .ok p) :
    p.kind = .executable ∧ encode p = .ok (withPlainFlags data) := by
  obtain ⟨more, rfl, hmore⟩ := decode_eq_ok_iff.mp h
  obtain ⟨hkind, hcountable, hdata⟩ := takeProgram_eq_ok hmore
  rw [List.append_nil] at hdata
  exact ⟨hkind, encode_eq_ok_iff.mpr ⟨hcountable, hdata⟩⟩

/-- What is written of a program is written of every program that is the same. -/
theorem encode_of_carries {p q : Program}
    (h : Carries p q p.debugEntries p.labels.toList) : encode q = encode p := by
  have hsize : q.labels.size = p.labels.size := congrArg List.length h.labels_eq
  have htables : debugTables q = debugTables p := by
    unfold debugTables
    rw [h.hasDebugInfo_eq, h.debugEntries_eq, hsize, h.labels_eq]
  have hflags : flagsByte q = flagsByte p := by
    rw [flagsByte, flagsByte, h.dualMonitor_eq, h.hasDebugInfo_eq]
  rw [encode, encode, htables, hflags, h.bytes_eq, h.origin_eq, h.entry_eq]

/-- The reader loses nothing. Whatever bytes an image is, if they are accepted, the program is
written as these bytes again, where of an executable the six flags that mean nothing are not set. So
executables that give the same program, with its debug entries and labels in the same order, differ
in nothing but those flags. -/
theorem image_ofImage :
    (∀ (data : List UInt8) (origin : UInt16) (p : Program),
      Program.ofImage data origin = .ok p →
        p.image = .ok (if isSigned data then withPlainFlags data else data)) ∧
    (∀ (data other : List UInt8) (p q : Program), decode data = .ok p → decode other = .ok q →
      Carries p q p.debugEntries p.labels.toList → withPlainFlags data = withPlainFlags other) := by
  constructor
  · intro data origin p h
    unfold Program.ofImage at h
    cases hsigned : isSigned data with
    | true =>
        rw [hsigned, if_pos rfl] at h
        obtain ⟨hkind, hencode⟩ := encode_decode h
        rw [if_pos rfl, Program.image, hkind]
        exact hencode
    | false =>
        rw [hsigned, if_neg Bool.false_ne_true] at h
        rw [if_neg Bool.false_ne_true]
        split at h
        · cases h
        · cases h
          rfl
  · intro data other p q hp hq hsame
    have hencode := encode_of_carries hsame
    rw [(encode_decode hp).2, (encode_decode hq).2] at hencode
    exact (Except.ok.inj hencode).symm

/-- A program with one byte in an executable whose flags are all set apart from the debug flag. -/
theorem image_of_spare_flags :
    let data (flags : UInt8) : List UInt8 :=
      [0x42, 0x33, 0x33, 1, 0x00, 0x40, 0x00, 0x40, flags, 1, 0, 0x01]
    let p : Program :=
      { bytes := [0x01], origin := 0x4000, entry := 0x4000, dualMonitor := true,
        kind := .executable }
    Program.ofImage (data 0xFD) 0 = .ok p ∧ p.image = .ok (data 0x01) ∧
      decode (data 0x05) = .ok p ∧
      withPlainFlags (data 0xFD) = withPlainFlags (data 0x05) := by
  intro data p
  have hp : Program.ofImage (data 0xFD) 0 = .ok p := rfl
  have hq : decode (data 0x05) = .ok p := rfl
  refine ⟨hp, ?_, hq, ?_⟩
  · rw [image_ofImage.1 (data 0xFD) 0 p hp]
    rfl
  · exact image_ofImage.2 (data 0xFD) (data 0x05) p p hp hq
      ⟨rfl, rfl, rfl, rfl, rfl, rfl, rfl, rfl⟩

end B33.Executable
