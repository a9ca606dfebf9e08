import B33.Proofs.Assembly.Written
import B33.Proofs.Executable.RoundTrip
import B33.Proofs.Text.Lines

/-!
# Assembled executables

What is assembled as an executable can be read again, with three exceptions. There can be more
labels than a count can hold, which is refused when the executable is written. An `END` can name an
address outside the program, and two long labels can be the same once they are cut, which are both
refused when it is read. An `END` that names a label never leads outside.
-/
namespace B33
open Assembly Source

namespace Assembly

theorem Encodes.length_finish {env : Environment} {address : UInt16} {operand : Option Expression}
    {bs : List UInt8} (h : Encodes env address (.finish operand) bs) : bs.length = 1 := by
  cases h with
  | finish | finishAt => rfl

/-- Nothing is read behind the line that ends a source. -/
theorem eq_nil_of_readLines {number : Nat} {texts : List String} {lines before after : List Line}
    {line : Line} (h : Layout.readLines number texts = .ok lines)
    (hlines : lines = before ++ line :: after) (hlast : Layout.isLast line = true) :
    after = [] := by
  induction texts generalizing number lines before with
  | nil =>
      cases h
      simp at hlines
  | cons text texts ih =>
      obtain ⟨first, -, h⟩ := bind_eq_ok_iff.mp h
      split_ifs at h with hfirst
      · cases h
        cases before with
        | nil =>
            cases hlines
            rfl
        | cons _ before => simp at hlines
      · obtain ⟨rest, hrest, h⟩ := bind_eq_ok_iff.mp h
        cases h
        cases before with
        | nil =>
            cases hlines
            exact (hfirst hlast).elim
        | cons _ before =>
            cases hlines
            exact ih hrest rfl

end Assembly

variable {origin : UInt16} {source : String} {a : Assembled} {env : Environment}

/-- The listing of a source with an `END` has that line last, and it has one byte. -/
theorem Assembled.Consistent.listing_eq (h : a.Consistent origin source env) {f : ListingLine}
    (hf : f ∈ a.listing) {operand : Option Expression}
    (hs : f.line.statement = some (.finish operand)) :
    ∃ before, a.listing = before ++ [f] ∧ f.bytes.length = 1 := by
  obtain ⟨before, after, heq⟩ := List.append_of_mem hf
  have hlines : a.listing.map (·.line) = before.map (·.line) ++ f.line :: after.map (·.line) := by
    rw [heq, List.map_append, List.map_cons]
  have hlast : Layout.isLast f.line = true := by
    rw [Layout.isLast, hs]
  have hafter := List.map_eq_nil_iff.mp (eq_nil_of_readLines h.lines_eq hlines hlast)
  refine ⟨before, by rw [heq, hafter], ?_⟩
  rcases h.encodes f hf with ⟨hnone, -⟩ | ⟨s, hstatement, hencodes⟩
  · rw [hs] at hnone
    cases hnone
  · rw [hs] at hstatement
    cases hstatement
    exact hencodes.length_finish

/-- Every line of a source with an `END` stands at an address of the program. -/
theorem Assembled.Consistent.address_mem (h : a.Consistent origin source env) {f l : ListingLine}
    (hf : f ∈ a.listing) {operand : Option Expression}
    (hs : f.line.statement = some (.finish operand)) (hl : l ∈ a.listing) :
    origin.toNat ≤ l.address.toNat ∧ l.address.toNat < origin.toNat + a.program.bytes.length := by
  obtain ⟨before, hlisting, hone⟩ := h.listing_eq hf hs
  obtain ⟨k, hk, rfl⟩ := List.getElem_of_mem hl
  have hkle : k ≤ before.length := by
    rw [hlisting, List.length_append, List.length_singleton] at hk
    omega
  -- The last line has a byte, so what stands before a line is always less than the whole.
  have htotal : a.program.bytes.length = (before.flatMap (·.bytes)).length + 1 := by
    rw [h.bytes_eq, hlisting, List.flatMap_append, List.length_append, List.flatMap_singleton, hone]
  have hbefore : ((a.listing.take k).flatMap (·.bytes)).length ≤
      (before.flatMap (·.bytes)).length := by
    rw [hlisting, List.take_append_of_le_length hkle]
    conv_rhs => rw [← List.take_append_drop k before, List.flatMap_append, List.length_append]
    exact Nat.le_add_right _ _
  have hend := h.end_le
  rw [h.address_eq k hk, toNat_ofNat_of_le (by omega)]
  omega

/-- Whether an `END` that names anything names a label. -/
def Assembled.EndsAtLabel (a : Assembled) : Prop :=
  ∀ l ∈ a.listing, ∀ e, l.line.statement = some (.finish (some e)) →
    ∃ name, e = .symbol name 0 ∧ (a.program.labels.get? name).isSome

/-- A label stands for the address of a line. -/
theorem Assembled.Consistent.exists_listed (h : a.Consistent origin source env) {name : String}
    {address : UInt16} (hname : a.program.labels.get? name = some address) :
    ∃ l ∈ a.listing, l.address = address := by
  rw [NameTable.get?_eq_find?] at hname
  obtain ⟨entry, hentry, rfl⟩ := Option.map_eq_some_iff.mp hname
  have hmem := List.mem_of_find?_eq_some hentry
  rw [h.labels_eq] at hmem
  obtain ⟨l, hl, hlabel⟩ := List.mem_filterMap.mp hmem
  obtain ⟨label, -, rfl⟩ := Option.map_eq_some_iff.mp hlabel
  exact ⟨l, hl, rfl⟩

namespace Assembly

/-- A program is entered inside its bytes if its `END` names a label. -/
theorem entered_of_endsAtLabel {o : AssemblyOptions} (h : assemble o source = .ok a)
    (hlabel : a.EndsAtLabel) : Executable.Entered a.program := by
  obtain ⟨l, out, hl, hout, rfl⟩ := assemble_eq_ok h
  have hc := consistent_of_emit hl hout
  have henters := hc.enters
  change Executable.Entered (out.program o l)
  generalize hentry : (out.program o l).entry = entry at henters
  cases henters with
  | origin _ =>
    have horigin : (out.program o l).entry = (out.program o l).origin := hentry
    unfold Executable.Entered Program.endAddress
    rw [horigin]
    omega
  | @named line e v hline hoperand hv _ _ =>
    obtain ⟨f, hf, rfl⟩ := List.mem_map.mp hline
    have hs := f.line.statement_of_entry? hoperand
    obtain ⟨name, rfl, hname⟩ := hlabel f hf e hs
    obtain ⟨address, haddress⟩ := Option.isSome_iff_exists.mp hname
    have hvalue : l.symbols.value? name = some (address.toNat : Int) := by
      rw [Symbols.value?, show l.symbols.labels.get? name = some address from haddress]
    have hv' : v = address.toNat := by
      rw [Expression.value, hvalue] at hv
      simpa using hv.symm
    have heq : (out.program o l).entry = address := by
      rw [← ofInt_toNat address, ← hv']
      exact hentry
    obtain ⟨x, hx, hxaddress⟩ := hc.exists_listed haddress
    have hmem := hc.address_mem hf hs hx
    rw [hxaddress] at hmem
    rw [Executable.Entered, heq]
    exact .inr hmem

/-- A line has a debug entry only if it has bytes. -/
theorem length_debugEntries_le (ls : List ListingLine) :
    (ls.filterMap ListingLine.debugEntry?).length ≤ (ls.flatMap (·.bytes)).length := by
  induction ls with
  | nil => exact Nat.le_refl 0
  | cons l ls ih =>
      have hl : (l.debugEntry?.toList).length ≤ l.bytes.length := by
        unfold ListingLine.debugEntry?
        cases l.bytes with
        | nil => exact Nat.le_refl 0
        | cons b bs => exact Nat.le_add_left 1 bs.length
      rw [List.flatMap_cons, List.length_append, List.filterMap_cons]
      cases hentry : l.debugEntry? with
      | none => exact ih.trans (Nat.le_add_left _ _)
      | some entry =>
          rw [hentry, Option.toList_some, List.length_singleton] at hl
          dsimp only
          rw [List.length_cons]
          omega

/-- What is known of every assembled program, whatever its source is. -/
theorem program_of_assemble {o : AssemblyOptions} (h : assemble o source = .ok a) :
    a.program.kind = o.kind ∧ a.program.hasDebugInfo = o.debug ∧
      a.program.bytes.length ≤ 0xFFFF ∧ a.program.endAddress ≤ 0x10000 ∧
      a.program.debugEntries.length ≤ a.program.bytes.length := by
  obtain ⟨l, out, hl, hout, rfl⟩ := assemble_eq_ok h
  have hc := consistent_of_emit hl hout
  refine ⟨rfl, rfl, hc.length_le, hc.end_le, ?_⟩
  cases hdebug : o.debug with
  | false =>
      simp [Output.program, hdebug]
  | true =>
      simpa [Output.program, hdebug] using length_debugEntries_le out.listing.toList

end Assembly

namespace Executable

theorem countWord_of_le {field : CountedField} {n : Nat} (h : n ≤ 0xFFFF) :
    countWord field n = .ok (UInt16.ofNat n) := countWord_eq_ok_iff.mpr ⟨h, rfl⟩

theorem encode_of_labels {p : Program} (hbytes : p.bytes.length ≤ 0xFFFF)
    (hdebug : p.hasDebugInfo = true) (hentries : p.debugEntries.length ≤ 0xFFFF)
    (hlabels : 0xFFFF < p.labels.size) : encode p = .error (.tooLarge .labels p.labels.size) := by
  have hcount : countWord .labels p.labels.size = .error (.tooLarge .labels p.labels.size) :=
    if_neg (by omega)
  rw [encode, countWord_of_le hbytes, ok_bind, debugTables, if_pos hdebug,
    countWord_of_le hentries, ok_bind, hcount]
  rfl

/-- What was written of a program that is entered inside its bytes is read again. -/
theorem exists_decode {p : Program} {data : List UInt8} (hdata : encode p = .ok data)
    (hend : p.endAddress ≤ 0x10000) (hentered : Entered p)
    (hnames : (foldedNames ((if p.hasDebugInfo then p.labels.toList else []).map cutLabel)).Nodup) :
    ∃ q, decode data = .ok q ∧ Carries p q
      ((if p.hasDebugInfo then p.debugEntries else []).map cutEntry)
      ((if p.hasDebugInfo then p.labels.toList else []).map cutLabel) := by
  obtain ⟨hp, rfl⟩ := encode_eq_ok_iff.mp hdata
  obtain ⟨q, hq, hcarries⟩ := takeTables_eq_ok hp hnames
  refine ⟨q, ?_, hcarries⟩
  rw [decode_signature, takeProgram_header hp.1, if_neg (by omega), if_pos hentered, hq]
  rfl

theorem decode_of_repeat {p : Program} {data : List UInt8} (hdata : encode p = .ok data)
    (hend : p.endAddress ≤ 0x10000) (hentered : Entered p)
    (hnames :
      ¬(foldedNames ((if p.hasDebugInfo then p.labels.toList else []).map cutLabel)).Nodup) :
    ∃ name, decode data = .error (.duplicateLabel name) := by
  obtain ⟨hp, rfl⟩ := encode_eq_ok_iff.mp hdata
  obtain ⟨name, -, hname⟩ := takeTables_eq_error hp hnames
  refine ⟨name, ?_⟩
  rw [decode_signature, takeProgram_header hp.1, if_neg (by omega), if_pos hentered, hname]
  rfl

end Executable

/-- Whether an executable can tell the labels of a program apart. -/
def Program.HasDistinctLabels (p : Program) : Prop :=
  p.hasDebugInfo = true →
    (p.labels.toList.map fun l => foldCase (Executable.clip 0xFF l.1)).Nodup

theorem Program.nodup_iff (p : Program) :
    (Executable.foldedNames ((if p.hasDebugInfo then p.labels.toList else []).map
      Executable.cutLabel)).Nodup ↔ p.HasDistinctLabels := by
  unfold HasDistinctLabels Executable.foldedNames
  rw [List.map_map]
  cases p.hasDebugInfo with
  | false => simp
  | true => simp [Function.comp_def, Executable.cutLabel]

/-- A source with a label of its own on each line. -/
def labelLines (names : List String) : String :=
  String.ofList (names.flatMap fun name => name.toList ++ ['\n'])

namespace Assembly

/-- A label on a line of its own, at the origin. -/
def labelLine (origin : UInt16) (name : String) : Written where
  text := name
  label := some name
  address := origin

theorem contiguous_labelLines (origin : UInt16) (names : List String) :
    Contiguous origin.toNat (names.map (labelLine origin)) origin.toNat := by
  induction names with
  | nil => exact .nil _
  | cons name names ih =>
      have horigin := origin.toNat_lt
      refine .cons rfl ?_ (fun _ => by omega) ih
      exact (UInt16.ofNat_toNat).symm

theorem writes_labelLines (origin : UInt16) {names : List String}
    (hnames : ∀ name ∈ names, IsName name) (hdistinct : (names.map foldCase).Nodup) :
    Writes origin (labelLines names) (names.map (labelLine origin)) := by
  have horigin := origin.toNat_lt
  have hlabels : (names.map (labelLine origin)).filterMap (·.label) = names := by
    rw [List.filterMap_map]
    exact List.filterMap_some
  refine ⟨?_, ?_, ?_, ⟨origin.toNat, by omega, by omega, contiguous_labelLines origin names⟩, ?_⟩
  · rw [List.map_map]
    refine (splitLines_eq ?_ ?_).trans (List.map_id names).symm
    · intro name hname
      exact isLine_of_not_mem ((hnames name hname).not_mem rfl) ((hnames name hname).not_mem rfl)
    · exact String.toList_ofList
  · intro w hw
    obtain ⟨name, hname, rfl⟩ := List.mem_map.mp hw
    exact readsAs_label (hnames name hname)
  · intro w hw e he
    obtain ⟨name, -, rfl⟩ := List.mem_map.mp ((List.dropLast_sublist _).subset hw)
    cases he
  · rw [hlabels]
    exact hdistinct

theorem Laid.labels_eq {origin : UInt16} {number : Nat} {names : List String}
    {ps : List PlacedLine} (h : Laid number (names.map (labelLine origin)) ps) :
    ps.filterMap (fun p => p.line.addressLabel?.map fun name => (name, p.address)) =
      names.map fun name => (name, origin) := by
  induction names generalizing number ps with
  | nil =>
      cases h
      rfl
  | cons name names ih =>
      cases h with
      | @cons _ _ p _ ps _ hlabel hstatement haddress h =>
          have hp : p.line.addressLabel? = some name := by
            unfold Line.addressLabel? Line.isDefinition
            rw [hstatement, hlabel]
            rfl
          rw [List.filterMap_cons, hp, Option.map_some, ih h, haddress]
          rfl

theorem exists_assemble_labelLines (o : AssemblyOptions) (names : List String)
    (hnames : ∀ name ∈ names, IsName name) (hdistinct : (names.map foldCase).Nodup) :
    ∃ a, assemble o (labelLines names) = .ok a ∧ a.program.bytes = [] ∧
      a.program.labels.toList = names.map fun name => (name, o.origin) := by
  obtain ⟨l, hl, hvalid, hlaid⟩ := (writes_labelLines o.origin hnames hdistinct).exists_layout
  obtain ⟨a, ha, hbytes, -⟩ := exists_assemble_of_emits hl hlaid fun w hw => by
    obtain ⟨name, -, rfl⟩ := List.mem_map.mp hw
    exact Written.emits_of_none rfl rfl rfl
  refine ⟨a, ha, ?_, ?_⟩
  · rw [hbytes, List.flatMap_map]
    exact List.flatMap_eq_nil_iff.mpr fun _ _ => rfl
  · obtain ⟨l', out, hl', -, rfl⟩ := assemble_eq_ok ha
    rw [hl] at hl'
    cases hl'
    exact hvalid.labels_eq.trans hlaid.labels_eq

end Assembly

/-- A name of `n` underscores. -/
def underscores (n : Nat) : String := String.ofList (List.replicate n '_')

theorem toList_underscores (n : Nat) : (underscores n).toList = List.replicate n '_' :=
  String.toList_ofList

theorem foldCase_underscores (n : Nat) : foldCase (underscores n) = underscores n := by
  apply String.toList_inj.mp
  rw [foldCase, String.toList_map, toList_underscores, List.map_replicate]
  rfl

theorem utf8ByteSize_underscores (n : Nat) : (underscores n).utf8ByteSize = n := by
  induction n with
  | zero => rfl
  | succ n ih =>
      rw [underscores, List.replicate_succ, Executable.utf8ByteSize_ofList_cons]
      exact (congrArg (1 + ·) ih).trans (Nat.add_comm 1 n)

/-- Underscores are cut to the number that there is room for. -/
theorem clip_underscores {room n : Nat} (h : room ≤ n) :
    Executable.clip room (underscores n) = underscores room := by
  -- What is cut from underscores are underscores, so that only their number is to be found.
  have hfit := Executable.longestFit_clip room (underscores n)
  have hclip : Executable.clip room (underscores n) =
      underscores (Executable.clip room (underscores n)).length := by
    apply String.toList_inj.mp
    rw [toList_underscores, List.eq_replicate_iff]
    refine ⟨rfl, fun c hc => ?_⟩
    have hmem := hfit.starts.subset hc
    rw [toList_underscores] at hmem
    exact (List.mem_replicate.mp hmem).2
  have hle : (Executable.clip room (underscores n)).length ≤ room := by
    have hsize := hfit.fits
    rw [hclip, utf8ByteSize_underscores] at hsize
    exact hsize
  have hge : room ≤ (Executable.clip room (underscores n)).length := by
    have hprefix := hfit.longest (underscores room) (by
      rw [toList_underscores, toList_underscores]
      exact ⟨List.replicate (n - room) '_', by
        rw [List.replicate_append_replicate, Nat.add_sub_cancel' h]⟩)
      (utf8ByteSize_underscores room).le
    have hlength := hprefix.length_le
    rw [toList_underscores, List.length_replicate] at hlength
    exact hlength
  rw [hclip, Nat.le_antisymm hle hge]

/-- No word that means something has an underscore. -/
theorem ofWord_underscores {n : Nat} (h : n ≠ 0) :
    TokenKind.ofWord (underscores n) = .label (underscores n) := by
  have hne {other : String} (hother : '_' ∉ other.toList) : underscores n ≠ other := by
    rintro rfl
    rw [toList_underscores] at hother
    exact hother (List.mem_replicate.mpr ⟨h, rfl⟩)
  have hupper : (underscores n).map Char.toUpper = underscores n := foldCase_underscores n
  have hm : Mnemonic.ofName? (underscores n) = none := by
    have all : ∀ e ∈ Mnemonic.named, '_' ∉ e.1.toList := by decide +kernel
    rw [Mnemonic.ofName?, hupper, List.lookup_eq_none_iff]
    intro e he
    simpa using hne (all e he)
  have hd : Directive.ofName? (underscores n) = none := by
    have all : ∀ d ∈ Directive.all, '_' ∉ d.name.toList := by decide
    rw [Directive.ofName?, hupper, List.find?_eq_none]
    intro d hd
    simpa using (hne (all d hd)).symm
  have hr : Register.ofName? (underscores n) = none := by
    have all : ∀ r ∈ Register.all, '_' ∉ r.name.toList := by decide
    rw [Register.ofName?, hupper, List.find?_eq_none]
    intro r hr
    simpa using (hne (all r hr)).symm
  rw [TokenKind.ofWord, hm, hd, hr]

theorem isName_underscores {n : Nat} (h : n ≠ 0) : IsName (underscores n) := by
  refine ⟨ofWord_underscores h, '_', List.replicate (n - 1) '_', ?_, .inr rfl, ?_⟩
  · obtain ⟨k, rfl⟩ := Nat.exists_eq_succ_of_ne_zero h
    exact toList_underscores (k + 1)
  · intro x hx
    rw [(List.mem_replicate.mp hx).2]
    rfl

theorem nodup_underscores {lengths : List Nat} (h : lengths.Nodup) :
    ((lengths.map underscores).map foldCase).Nodup := by
  rw [List.map_map]
  refine h.map_on fun m _ n _ hmn => ?_
  have hlist : (underscores m).toList = (underscores n).toList := by
    have := congrArg String.toList hmn
    simpa only [Function.comp_apply, foldCase_underscores] using this
  rw [toList_underscores, toList_underscores] at hlist
  simpa using congrArg List.length hlist

/-- Two labels that agree in their first 255 underscores. -/
theorem exists_duplicateLabel :
    ∃ a data name, assemble { debug := true } (labelLines ([256, 257].map underscores)) = .ok a ∧
      a.program.image = .ok data ∧ Executable.decode data = .error (.duplicateLabel name) := by
  obtain ⟨a, ha, hbytes, hlabels⟩ := exists_assemble_labelLines { debug := true }
    ([256, 257].map underscores) (by simp [isName_underscores]) (nodup_underscores (by decide))
  obtain ⟨hkind, hdebug, hlength, hend, hentries⟩ := program_of_assemble ha
  have hcountable : Executable.Countable a.program := by
    refine ⟨hlength, fun _ => ⟨by omega, ?_⟩⟩
    show a.program.labels.toList.length ≤ 0xFFFF
    rw [hlabels]
    decide
  have hsame : ¬a.program.HasDistinctLabels := by
    intro h
    have hnames := h hdebug
    rw [hlabels] at hnames
    simp [clip_underscores] at hnames
  have hentered : Executable.Entered a.program := .inl (by rw [hbytes]; rfl)
  have hdata := Executable.encode_eq_ok_iff.mpr ⟨hcountable, rfl⟩
  obtain ⟨name, hname⟩ :=
    Executable.decode_of_repeat hdata hend hentered (mt a.program.nodup_iff.mp hsame)
  exact ⟨a, _, name, ha, by rw [Program.image, hkind]; exact hdata, hname⟩

theorem exists_tooLarge {lengths : List Nat} (hzero : 0 ∉ lengths) (hnodup : lengths.Nodup)
    (hmany : 0xFFFF < lengths.length) :
    ∃ a, assemble { debug := true } (labelLines (lengths.map underscores)) = .ok a ∧
      a.program.image = .error (.tooLarge .labels lengths.length) := by
  have hnames : ∀ name ∈ lengths.map underscores, IsName name := by
    intro name hname
    obtain ⟨n, hn, rfl⟩ := List.mem_map.mp hname
    exact isName_underscores fun h => hzero (h ▸ hn)
  obtain ⟨a, ha, -, hlabels⟩ :=
    exists_assemble_labelLines { debug := true } _ hnames (nodup_underscores hnodup)
  obtain ⟨hkind, hdebug, hlength, -, hentries⟩ := program_of_assemble ha
  have hsize : a.program.labels.size = lengths.length := by
    have h := congrArg List.length hlabels
    rw [List.length_map, List.length_map] at h
    exact h
  refine ⟨a, ha, ?_⟩
  rw [Program.image, hkind, ← hsize]
  exact Executable.encode_of_labels hlength hdebug (by omega) (by omega)

end B33
