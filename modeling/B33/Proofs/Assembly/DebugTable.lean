import B33.Proofs.Assembly.Image
import B33.Proofs.Assembly.Listing

/-!
# Debug tables

The debug entries of a program are its lines that have bytes, in their order. Such lines begin at
addresses that grow from one to the next, so looking an address up finds the line that begins there
and no other. Lines without bytes have no entry, however many of them share an address.
-/
namespace B33
open Assembly Source

/-- A debug entry tells where the bytes of a line begin, its number as far as a word can hold it, and
its text without the blanks around it. -/
structure DebugEntry.Records (e : DebugEntry) (l : ListingLine) : Prop where
  address : e.address = l.address
  line : e.line.toNat = min l.line.number 0xFFFF
  text : e.text = trimString l.line.source

namespace Assembly

theorem records_of_debugEntry {l : ListingLine} {e : DebugEntry} (h : l.debugEntry? = some e) :
    l.bytes ≠ [] ∧ e.Records l := by
  unfold ListingLine.debugEntry? at h
  split at h
  · cases h
  · next hbytes =>
    cases h
    refine ⟨by simpa using hbytes, rfl, ?_, rfl⟩
    exact toNat_ofNat_of_le (by omega)

theorem exists_debugEntry {l : ListingLine} (h : l.bytes ≠ []) : ∃ e, l.debugEntry? = some e := by
  unfold ListingLine.debugEntry?
  rw [if_neg (by simpa using h)]
  exact ⟨_, rfl⟩

/-- The entries of a listing are one for each line that has bytes. -/
theorem records_entries (ls : List ListingLine) :
    List.Forall₂ DebugEntry.Records (ls.filterMap ListingLine.debugEntry?)
      (ls.filter (·.bytes ≠ [])) := by
  induction ls with
  | nil => exact .nil
  | cons l ls ih =>
      by_cases hl : l.bytes = []
      · have hnone : l.debugEntry? = none := by simp [ListingLine.debugEntry?, hl]
        rw [List.filterMap_cons_none hnone, List.filter_cons_of_neg (by simpa using hl)]
        exact ih
      · obtain ⟨e, he⟩ := exists_debugEntry hl
        rw [List.filterMap_cons_some he, List.filter_cons_of_pos (by simpa using hl)]
        exact .cons (records_of_debugEntry he).2 ih

/-- Lines of a listing that lie one after the other from an address on. -/
inductive LiesFrom : Nat → List ListingLine → Prop
  | nil (n : Nat) : LiesFrom n []
  | cons {n : Nat} {l : ListingLine} {ls : List ListingLine} : l.address = UInt16.ofNat n →
      LiesFrom (n + l.bytes.length) ls → LiesFrom n (l :: ls)

theorem liesFrom_of_address {n : Nat} {ls : List ListingLine}
    (h : ∀ (k : Nat) (hk : k < ls.length),
      ls[k].address = UInt16.ofNat (n + ((ls.take k).flatMap (·.bytes)).length)) :
    LiesFrom n ls := by
  induction ls generalizing n with
  | nil => exact .nil n
  | cons l ls ih =>
      refine .cons (by simpa using h 0 (Nat.zero_lt_succ _)) (ih fun k hk => ?_)
      have hnext := h (k + 1) (Nat.succ_lt_succ hk)
      rw [List.getElem_cons_succ, List.take_succ_cons, List.flatMap_cons, List.length_append,
        ← Nat.add_assoc] at hnext
      exact hnext

/-- A line that has bytes begins before the next one does, so the addresses of the entries grow. A
line without bytes can lie at the end of memory, where its address is cut, but has no entry. -/
theorem LiesFrom.entries {n : Nat} {ls : List ListingLine} (h : LiesFrom n ls)
    (hend : n + (ls.flatMap (·.bytes)).length ≤ 0x10000) :
    (ls.filterMap ListingLine.debugEntry?).Pairwise (fun e f => e.address < f.address) ∧
      ∀ e ∈ ls.filterMap ListingLine.debugEntry?,
        n ≤ e.address.toNat ∧ e.address.toNat < n + (ls.flatMap (·.bytes)).length := by
  induction h with
  | nil n => exact ⟨.nil, by simp⟩
  | @cons n l ls haddress _ ih =>
      rw [List.flatMap_cons, List.length_append] at hend ⊢
      obtain ⟨hgrow, hrange⟩ := ih (by omega)
      cases he : l.debugEntry? with
      | none =>
          rw [List.filterMap_cons_none he]
          refine ⟨hgrow, fun e hmem => ?_⟩
          have := hrange e hmem
          omega
      | some e =>
          obtain ⟨hbytes, hrecords⟩ := records_of_debugEntry he
          have hlength := List.length_pos_iff.mpr hbytes
          have hfirst : e.address.toNat = n := by
            rw [hrecords.address, haddress]
            exact toNat_ofNat_of_le (by omega)
          rw [List.filterMap_cons_some he]
          constructor
          · refine .cons (fun f hmem => ?_) hgrow
            have := hrange f hmem
            rw [UInt16.lt_iff_toNat_lt]
            omega
          · rw [List.forall_mem_cons]
            refine ⟨by omega, fun f hmem => ?_⟩
            have := hrange f hmem
            omega

/-- Of entries whose addresses grow, each is the first at its address. -/
theorem find?_address_of_mem {es : List DebugEntry} {e : DebugEntry}
    (h : es.Pairwise fun e f => e.address < f.address) (he : e ∈ es) :
    es.find? (·.address == e.address) = some e := by
  induction h with
  | nil => cases he
  | @cons f es hf _ ih =>
      rcases List.mem_cons.mp he with rfl | he
      · exact List.find?_cons_of_pos (beq_self_eq_true _)
      · have hne : (f.address == e.address) = false := beq_false_of_ne (UInt16.ne_of_lt (hf e he))
        rw [List.find?_cons_of_neg (by simp [hne])]
        exact ih he

/-- Lines that were read have the numbers and the texts of the lines of the source. -/
theorem numbered_of_readLines {number : Nat} {texts : List String} {lines : List Line}
    (h : Layout.readLines number texts = .ok lines) (k : Nat) (hk : k < lines.length) :
    lines[k].number = number + k ∧ texts[k]? = some lines[k].source := by
  induction texts generalizing number lines k with
  | nil =>
      cases h
      cases hk
  | cons text texts ih =>
      obtain ⟨line, hline, h⟩ := bind_eq_ok_iff.mp h
      have hfirst : line.number = number + 0 ∧ some text = some line.source :=
        ⟨Line.number_of_parse hline, congrArg some (Line.source_of_parse hline).symm⟩
      split_ifs at h
      · cases h
        cases k with
        | zero => exact hfirst
        | succ k => exact absurd hk (by simp)
      · obtain ⟨rest, hrest, h⟩ := bind_eq_ok_iff.mp h
        cases h
        cases k with
        | zero => exact hfirst
        | succ k =>
            obtain ⟨hnumber, htext⟩ := ih hrest k (by simpa using hk)
            rw [List.getElem_cons_succ, List.getElem?_cons_succ, hnumber]
            exact ⟨by omega, htext⟩

end Assembly

namespace Executable

/-- A program whose debug entries can be counted is not refused for them. -/
theorem encode_ne_debugEntries {p : Program} (h : p.debugEntries.length ≤ 0xFFFF) (n : Nat) :
    encode p ≠ .error (.tooLarge .debugEntries n) := by
  have hcount {field : CountedField} {k : Nat} {e : FormatError}
      (he : countWord field k = .error e) : e = .tooLarge field k := by
    unfold countWord at he
    split at he
    · cases he
    · exact (Except.error.inj he).symm
  intro herror
  unfold encode at herror
  cases hbytes : countWord .programBytes p.bytes.length with
  | error e =>
      rw [hbytes] at herror
      cases (hcount hbytes).symm.trans (Except.error.inj herror)
  | ok count =>
      rw [hbytes, ok_bind] at herror
      cases htables : debugTables p with
      | ok tables =>
          rw [htables] at herror
          cases herror
      | error e =>
          rw [htables] at herror
          cases Except.error.inj herror
          unfold debugTables at htables
          split_ifs at htables
          · rw [countWord_of_le h, ok_bind] at htables
            cases hlabels : countWord .labels p.labels.size with
            | ok labels =>
                rw [hlabels] at htables
                cases htables
            | error e =>
                rw [hlabels] at htables
                cases (hcount hlabels).symm.trans (Except.error.inj htables)
          · cases htables

end Executable

/-- The debug entries of an assembled program are its lines that have bytes, and an address where one
of them begins leads to it. -/
structure Assembled.Tabulated (source : String) (a : Assembled) : Prop where
  /-- The lines of the listing are the lines of the source, from the first on. -/
  numbered : ∀ (k : Nat) (hk : k < a.listing.length), a.listing[k].line.number = k + 1 ∧
    (splitLines source)[k]? = some a.listing[k].line.source
  entries : List.Forall₂ DebugEntry.Records a.program.debugEntries
    (a.listing.filter (·.bytes ≠ []))
  increasing : a.program.debugEntries.Pairwise fun e f => e.address < f.address
  inside : ∀ e ∈ a.program.debugEntries,
    a.program.origin.toNat ≤ e.address.toNat ∧ e.address.toNat < a.program.endAddress
  found : ∀ l ∈ a.listing, l.bytes ≠ [] →
    ∃ e, a.program.sourceAt? l.address = some e ∧ e.Records l
  length_le : a.program.debugEntries.length ≤ 0xFFFF
  /-- An executable is never refused for its debug entries. -/
  writable : ∀ n, Executable.encode a.program ≠ .error (.tooLarge .debugEntries n)

end B33
