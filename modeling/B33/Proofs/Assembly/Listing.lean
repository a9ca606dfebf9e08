import B33.Assembly
import B33.Proofs.Assembly.Layout

/-!
# Listings

The two walks through a source agree. The second one gives every line as many bytes as the first one
reserved for it, so each line of a listing stands where the bytes before it end, and every name that
an operand uses stands for the one thing that it was defined as, wherever the operand is. The program
is entered where its `END` says.
-/
namespace B33

/-- The operand of an `END`. -/
def Source.Line.entry? (line : Source.Line) : Option Source.Expression :=
  match line.statement with
  | some (.finish operand) => operand
  | _ => none

theorem Source.Line.statement_of_entry? {line : Source.Line} {e : Source.Expression}
    (h : line.entry? = some e) : line.statement = some (.finish (some e)) := by
  unfold Source.Line.entry? at h
  split at h
  · next hstatement => rw [hstatement, h]
  · cases h

namespace Assembly
open Source

/-- Where a program is entered: at its origin, unless an `END` names an address. -/
inductive Enters (env : Environment) (origin : UInt16) (lines : List Line) : UInt16 → Prop
  | origin : (∀ line ∈ lines, line.entry? = none) → Enters env origin lines origin
  | named {line : Line} {e : Expression} {v : Int} : line ∈ lines → line.entry? = some e →
      e.value env = .ok v → 0 ≤ v → v ≤ 0xFFFF → Enters env origin lines (UInt16.ofInt v)

/-- A line of a listing comes from a placed line. -/
def Lists (symbols : Symbols) (p : PlacedLine) (l : ListingLine) : Prop :=
  l.line = p.line ∧ l.address = p.address ∧
    ∃ emitted, emitLine symbols p = .ok emitted ∧ l.bytes = emitted.bytes

theorem foldlM_push_lists {symbols : Symbols} {ps : List PlacedLine} {start out : Output}
    (h : ps.foldlM (Output.push symbols) start = .ok out) :
    ∃ ls, out.listing.toList = start.listing.toList ++ ls ∧
      List.Forall₂ (Lists symbols) ps ls := by
  induction ps generalizing start with
  | nil =>
      cases h
      exact ⟨[], by simp, .nil⟩
  | cons p ps ih =>
      obtain ⟨next, hnext, h⟩ := bind_eq_ok_iff.mp h
      obtain ⟨emitted, he, hnext⟩ := bind_eq_ok_iff.mp hnext
      cases hnext
      obtain ⟨ls, hls, hall⟩ := ih h
      refine ⟨⟨p.line, p.address, emitted.bytes⟩ :: ls, ?_, .cons ⟨rfl, rfl, emitted, he, rfl⟩ hall⟩
      rw [hls, Array.toList_push, List.append_assoc, List.singleton_append]

/-- A walk through the placed lines adds a line to the listing for each. -/
theorem lists_of_emit {l : Layout} {start out : Output} (hs : start.listing = #[])
    (h : l.emit start = .ok out) :
    List.Forall₂ (Lists l.symbols) l.lines.toList out.listing.toList := by
  unfold Layout.emit at h
  rw [← Array.foldlM_toList] at h
  obtain ⟨ls, hls, hall⟩ := foldlM_push_lists h
  rw [hls, hs, List.nil_append]
  exact hall

theorem Lists.placed_eq {symbols : Symbols} {ps : List PlacedLine} {ls : List ListingLine}
    (h : List.Forall₂ (Lists symbols) ps ls) :
    ps = ls.map fun l => { line := l.line, address := l.address } := by
  induction h with
  | nil => rfl
  | cons h _ ih => rw [List.map_cons, ← ih, h.1, h.2.1]

/-- A line of a listing has the bytes of its statement. -/
theorem Lists.encodes {symbols : Symbols} {p : PlacedLine} {l : ListingLine} {size : Nat}
    (h : Lists symbols p l) (hsize : lineSize symbols p.line = .ok size)
    (hv : ∀ e, p.line.statement = some (.define e) →
      ∃ v, e.value symbols.value? = .ok v ∧ -32768 ≤ v ∧ v ≤ 0xFFFF) :
    (l.line.statement = none ∧ l.bytes = [] ∨
      ∃ s, l.line.statement = some s ∧ Encodes symbols.value? l.address s l.bytes) ∧
    l.bytes.length = size := by
  obtain ⟨hline, haddress, emitted, he, hbytes⟩ := h
  rw [hline, haddress, hbytes]
  unfold lineSize at hsize
  unfold emitLine at he
  cases hs : p.line.statement with
  | none =>
      rw [hs] at he hsize
      cases he
      cases hsize
      exact ⟨.inl ⟨rfl, rfl⟩, rfl⟩
  | some s =>
      simp only [hs] at he hsize
      have hout : emitStatement symbols p.address s = .ok emitted := by
        split at he
        · next hok => rwa [Except.ok.inj he] at hok
        · cases he
      have henc : Encodes symbols.value? p.address s emitted.bytes := by
        by_cases hd : ∃ e, s = .define e
        · obtain ⟨e, rfl⟩ := hd
          obtain ⟨v, h₁, h₂, h₃⟩ := hv e hs
          cases hout
          exact .define h₁ h₂ h₃
        · exact emitStatement_encodes (fun e hse => hd ⟨e, hse⟩) hsize hout
      have hlen := henc.sizeOf_eq
      rw [hsize] at hlen
      exact ⟨.inr ⟨s, rfl, henc⟩, (Except.ok.inj hlen).symm⟩

/-- Lines that lie one after the other lie where the bytes before them end. -/
theorem Tiles.lists {symbols : Symbols} {n m : Nat} {ps : List PlacedLine}
    {ls : List ListingLine} (ht : Tiles symbols n ps m) (hl : List.Forall₂ (Lists symbols) ps ls)
    (hv : ∀ p ∈ ps, ∀ e, p.line.statement = some (.define e) →
      ∃ v, e.value symbols.value? = .ok v ∧ -32768 ≤ v ∧ v ≤ 0xFFFF) :
    (∀ (k : Nat) (hk : k < ls.length),
      ls[k].address = UInt16.ofNat (n + ((ls.take k).flatMap (·.bytes)).length)) ∧
    m = n + (ls.flatMap (·.bytes)).length ∧
    ∀ l ∈ ls, l.line.statement = none ∧ l.bytes = [] ∨
      ∃ s, l.line.statement = some s ∧ Encodes symbols.value? l.address s l.bytes := by
  induction hl generalizing n with
  | nil =>
      cases ht
      exact ⟨by simp, by simp, by simp⟩
  | @cons p l ps ls h _ ih =>
      cases ht with
      | @cons _ _ size _ _ hsize ha ht =>
          obtain ⟨henc, hlen⟩ := h.encodes hsize (hv p List.mem_cons_self)
          obtain ⟨h₁, h₂, h₃⟩ := ih ht fun q hq => hv q (List.mem_cons_of_mem _ hq)
          refine ⟨?_, ?_, List.forall_mem_cons.mpr ⟨henc, h₃⟩⟩
          · intro k hk
            cases k with
            | zero => simpa [h.2.1] using ha
            | succ k =>
                rw [List.getElem_cons_succ, h₁ k (by simpa using hk), List.take_succ_cons,
                  List.flatMap_cons, List.length_append, hlen, Nat.add_assoc]
          · rw [h₂, List.flatMap_cons, List.length_append, hlen, Nat.add_assoc]

theorem entry_of_emitInstruction {symbols : Symbols} {address : UInt16} {i : Instruction}
    {operand : Operand} {out : Emitted}
    (h : emitInstruction symbols address i operand = .ok out) : out.entry = none := by
  obtain ⟨bs, -, hencodes⟩ := emitInstruction_encodes h
  obtain ⟨out', h', -, hentry⟩ := exists_emitInstruction hencodes
  rw [h] at h'
  cases h'
  exact hentry

/-- An `END` with an operand sets the entry, and nothing else does. -/
theorem entry_of_emitLine {symbols : Symbols} {p : PlacedLine} {out : Emitted}
    (h : emitLine symbols p = .ok out) :
    p.line.entry? = none ∧ out.entry = none ∨
      ∃ e v, p.line.entry? = some e ∧ e.value symbols.value? = .ok v ∧ 0 ≤ v ∧ v ≤ 0xFFFF ∧
        out.entry = some (UInt16.ofInt v) := by
  unfold emitLine at h
  unfold Line.entry?
  split at h
  case h_1 hs =>
    cases h
    rw [hs]
    exact .inl ⟨rfl, rfl⟩
  case h_2 statement hs =>
    split at h
    case h_2 => cases h
    case h_1 emitted hemitted =>
      cases h
      rw [hs]
      cases statement with
      | define e =>
          cases hemitted
          exact .inl ⟨rfl, rfl⟩
      | instruction m operand =>
          have hentry : out.entry = none := by
            obtain ⟨i, -, hemitted⟩ := bind_eq_ok_iff.mp hemitted
            exact entry_of_emitInstruction hemitted
          exact .inl ⟨rfl, hentry⟩
      | reserve e =>
          obtain ⟨v, -, hemitted⟩ := bind_eq_ok_iff.mp hemitted
          cases hemitted
          exact .inl ⟨rfl, rfl⟩
      | string s =>
          cases hemitted
          exact .inl ⟨rfl, rfl⟩
      | bytes es =>
          obtain ⟨bs, -, hemitted⟩ := bind_eq_ok_iff.mp hemitted
          cases hemitted
          exact .inl ⟨rfl, rfl⟩
      | finish operand =>
          cases operand with
          | none =>
              cases hemitted
              exact .inl ⟨rfl, rfl⟩
          | some e =>
              obtain ⟨v, hv, hemitted⟩ := bind_eq_ok_iff.mp hemitted
              obtain ⟨word, hword, hemitted⟩ := bind_eq_ok_iff.mp hemitted
              obtain ⟨hleast, hgreatest, rfl⟩ := addressOf_eq_ok_iff.mp hword
              cases hemitted
              exact .inr ⟨e, v, rfl, hv, hleast, hgreatest, rfl⟩

/-- The entry that a walk begins with stands until an `END` names another. -/
theorem enters_of_foldlM {symbols : Symbols} {ps : List PlacedLine} {start out : Output}
    (h : ps.foldlM (Output.push symbols) start = .ok out) :
    Enters symbols.value? start.entry (ps.map (·.line)) out.entry := by
  induction ps generalizing start with
  | nil =>
      cases h
      exact .origin (List.forall_mem_nil _)
  | cons p ps ih =>
      rw [List.foldlM_cons] at h
      obtain ⟨next, hnext, h⟩ := bind_eq_ok_iff.mp h
      obtain ⟨emitted, hemitted, hnext⟩ := bind_eq_ok_iff.mp hnext
      cases hnext
      have hrest := ih h
      generalize out.entry = entry at hrest ⊢
      cases hrest with
      | named hline hoperand hv hleast hgreatest =>
          exact .named (List.mem_cons_of_mem _ hline) hoperand hv hleast hgreatest
      | origin hnone =>
          rcases entry_of_emitLine hemitted with ⟨hoperand, hentry⟩ | ⟨e, v, hoperand, hv, hleast,
            hgreatest, hentry⟩
          · simp only [hentry, Option.getD_none]
            exact .origin (List.forall_mem_cons.mpr ⟨hoperand, hnone⟩)
          · simp only [hentry, Option.getD_some]
            exact .named List.mem_cons_self hoperand hv hleast hgreatest

end Assembly

open Assembly Source

/-- The listing, the bytes and the names of an assembled source say the same. -/
structure Assembled.Consistent (origin : UInt16) (source : String) (a : Assembled)
    (env : Environment) : Prop where
  /-- The listing has every line up to the first `END`. -/
  lines_eq : Layout.readLines 1 (splitLines source) = .ok (a.listing.map (·.line))
  origin_eq : a.program.origin = origin
  bytes_eq : a.program.bytes = a.listing.flatMap (·.bytes)
  /-- A line stands behind the bytes of the lines before it. -/
  address_eq : ∀ (k : Nat) (hk : k < a.listing.length),
    a.listing[k].address =
      UInt16.ofNat (origin.toNat + ((a.listing.take k).flatMap (·.bytes)).length)
  labels_eq : a.program.labels.toList = a.listing.filterMap fun l =>
    l.line.addressLabel?.map fun name => (name, l.address)
  /-- Labels and named numbers share one space of names. -/
  names : ((a.listing.filterMap (·.line.label)).map foldCase).Nodup
  /-- A name stands for what the line that defines it says. -/
  defined : ∀ name v, env name = some v ↔ ∃ l ∈ a.listing, l.line.Defines env l.address name v
  /-- Operands, numbers of bytes to reserve and named numbers all take names to mean that. -/
  encodes : ∀ l ∈ a.listing, l.line.statement = none ∧ l.bytes = [] ∨
    ∃ s, l.line.statement = some s ∧ Encodes env l.address s l.bytes
  /-- The operand of the `END` is the entry, and it too takes names to mean that. -/
  enters : Enters env origin (a.listing.map (·.line)) a.program.entry
  length_le : a.program.bytes.length ≤ 0xFFFF
  end_le : origin.toNat + a.program.bytes.length ≤ 0x10000

namespace Assembly

/-- What is true of every line that can be read is true of the lines of a source. -/
theorem forall_of_readLines {P : Line → Prop} {number : Nat} {texts : List String}
    {lines : List Line}
    (hP : ∀ number, ∀ text ∈ texts, ∀ line, Line.parse number text = .ok line → P line)
    (h : Layout.readLines number texts = .ok lines) : ∀ line ∈ lines, P line := by
  induction texts generalizing number lines with
  | nil =>
      cases h
      simp
  | cons text texts ih =>
      obtain ⟨line, hline, h⟩ := bind_eq_ok_iff.mp h
      have hl : P line := hP _ _ List.mem_cons_self _ hline
      split_ifs at h
      · cases h
        simpa using hl
      · obtain ⟨rest, hrest, h⟩ := bind_eq_ok_iff.mp h
        cases h
        exact List.forall_mem_cons.mpr ⟨hl, ih (fun n t ht => hP n t (.tail _ ht)) hrest⟩

/-- Both walks of an assembly that succeeds. -/
theorem assemble_eq_ok {o : AssemblyOptions} {source : String} {a : Assembled}
    (h : assemble o source = .ok a) :
    ∃ l out, Layout.ofSource o.origin source = .ok l ∧
      l.emit { entry := o.origin, secondMonitor := o.dualMonitor } = .ok out ∧
      a = { program := out.program o l, listing := out.listing.toList } := by
  obtain ⟨l, hl, h⟩ := bind_eq_ok_iff.mp h
  obtain ⟨out, hout, h⟩ := bind_eq_ok_iff.mp h
  cases h
  exact ⟨l, out, hl, hout, rfl⟩

theorem ofSource_valid {origin : UInt16} {source : String} {l : Layout}
    (h : Layout.ofSource origin source = .ok l) :
    l.Valid origin ∧ Layout.readLines 1 (splitLines source) = .ok (l.lines.toList.map (·.line)) := by
  obtain ⟨lines, hlines, h⟩ := Layout.placeAll_eq_ok_iff.mp h
  have hlabels : ∀ line ∈ lines, line.isDefinition → line.label.isSome :=
    forall_of_readLines (fun _ _ _ _ => Line.isSome_label_of_parse) hlines
  obtain ⟨hv, hmap⟩ := Layout.foldlM_place_valid hlabels (Layout.valid_start origin) h
  refine ⟨hv, ?_⟩
  rw [hmap, hlines]
  simp [Layout.start]

theorem consistent_of_emit {o : AssemblyOptions} {source : String} {l : Layout} {out : Output}
    (hl : Layout.ofSource o.origin source = .ok l)
    (hout : l.emit { entry := o.origin, secondMonitor := o.dualMonitor } = .ok out) :
    Assembled.Consistent o.origin source
      { program := out.program o l, listing := out.listing.toList } l.symbols.value? := by
  obtain ⟨hv, hlines⟩ := ofSource_valid hl
  have hall := lists_of_emit rfl hout
  have hplaced := Lists.placed_eq hall
  obtain ⟨haddress, hfinish, henc⟩ := hv.tiles.lists hall hv.values
  have hlength : l.finish = o.origin.toNat + (out.program o l).bytes.length := hfinish
  have hline : out.listing.toList.map (·.line) = l.lines.toList.map (·.line) := by
    rw [hplaced, List.map_map]
    rfl
  constructor
  · rw [hlines, hline]
  · rfl
  · rfl
  · exact haddress
  · show l.symbols.labels.toList = _
    rw [hv.labels_eq, hplaced, List.filterMap_map]
    rfl
  · have hn := hv.names
    rw [hplaced, List.filterMap_map] at hn
    exact hn
  · intro name v
    constructor
    · intro hname
      obtain ⟨p, hp, hd⟩ := hv.defined name v hname
      rw [hplaced] at hp
      obtain ⟨x, hx, rfl⟩ := List.mem_map.mp hp
      exact ⟨x, hx, hd⟩
    · rintro ⟨x, hx, label, h₁, h₂, h₃⟩
      have hp : { line := x.line, address := x.address } ∈ l.lines.toList := by
        rw [hplaced]
        exact List.mem_map_of_mem hx
      obtain ⟨w, h₄, h₅⟩ := hv.labelled _ hp label h₁
      rw [← l.symbols.value?_congr h₂, h₅, Except.ok.inj (h₃.symm.trans h₄)]
  · exact henc
  · have henters : Enters l.symbols.value? o.origin (l.lines.toList.map (·.line)) out.entry := by
      unfold Layout.emit at hout
      rw [← Array.foldlM_toList] at hout
      exact enters_of_foldlM hout
    rw [← hline] at henters
    exact henters
  · have := hv.length_le
    show (out.program o l).bytes.length ≤ _
    omega
  · have := hv.finish_le
    show _ + (out.program o l).bytes.length ≤ _
    omega

theorem Encodes.exists_emitLine {symbols : Symbols} {p : PlacedLine} {s : Statement}
    {bs : List UInt8} (h : Encodes symbols.value? p.address s bs)
    (hs : p.line.statement = some s) : ∃ out, emitLine symbols p = .ok out := by
  obtain ⟨out, hout, -⟩ := exists_emitStatement h
  refine ⟨out, ?_⟩
  simp only [emitLine, hs, hout]

/-- A layout is emitted if each of its lines is. -/
theorem exists_emit {l : Layout} (h : ∀ p ∈ l.lines, ∃ out, emitLine l.symbols p = .ok out)
    (start : Output) : ∃ out, l.emit start = .ok out := by
  obtain ⟨⟨lines⟩, symbols, finish⟩ := l
  simp only [Layout.emit, List.foldlM_toArray, List.mem_toArray] at h ⊢
  induction lines generalizing start with
  | nil => exact ⟨start, rfl⟩
  | cons p lines ih =>
      obtain ⟨⟨emitted, hemitted⟩, hrest⟩ := List.forall_mem_cons.mp h
      rw [List.foldlM_cons, Output.push, hemitted, ok_bind, pure_bind]
      exact ih _ hrest

/-- A named number of bytes is reserved at a label, in front of a branch back to it. -/
def reserving : String := "size EQU 2\nstart RMB SIZE\n BRA Start\n END start+2"

theorem readLines_reserving :
    Layout.readLines 1 (splitLines reserving) = .ok [
      ⟨1, some "size", some (.define (.number 2)), none, "size EQU 2"⟩,
      ⟨2, some "start", some (.reserve (.symbol "SIZE" 0)), none, "start RMB SIZE"⟩,
      ⟨3, none, some (.instruction (.branch .always) (.address (.symbol "Start" 0))), none,
        " BRA Start"⟩,
      ⟨4, none, some (.finish (some (.symbol "start" 2))), none, " END start+2"⟩] := by
  have hsplit : splitLines reserving =
      ["size EQU 2", "start RMB SIZE", " BRA Start", " END start+2"] := by decide +kernel
  have hequ : Line.parse 1 "size EQU 2" =
      .ok ⟨1, some "size", some (.define (.number 2)), none, "size EQU 2"⟩ := by decide +kernel
  have hrmb : Line.parse 2 "start RMB SIZE" =
      .ok ⟨2, some "start", some (.reserve (.symbol "SIZE" 0)), none, "start RMB SIZE"⟩ := by
    decide +kernel
  have hbra : Line.parse 3 " BRA Start" =
      .ok ⟨3, none, some (.instruction (.branch .always) (.address (.symbol "Start" 0))), none,
        " BRA Start"⟩ := by decide +kernel
  have hend : Line.parse 4 " END start+2" =
      .ok ⟨4, none, some (.finish (some (.symbol "start" 2))), none, " END start+2"⟩ := by
    decide +kernel
  simp only [hsplit, Layout.readLines, hequ, hrmb, hbra, hend, ok_bind]
  rfl

theorem exists_symbols_reserving :
    ∃ s t : Symbols, ({} : Symbols).defineConstant "size" 2 = .ok s ∧
      s.defineLabel "start" 0x4000 = .ok t ∧ s.value? "SIZE" = some 2 ∧
      t.value? "SIZE" = some 2 ∧ t.value? "start" = some 0x4000 ∧
      t.value? "Start" = some 0x4000 := by
  have hsize : foldCase "SIZE" = foldCase "size" := String.ext (by simp [foldCase])
  have hstart : foldCase "Start" = foldCase "start" := String.ext (by simp [foldCase])
  have hne : foldCase "size" ≠ foldCase "start" := by simp [foldCase, ← String.toList_inj]
  obtain ⟨s, hs⟩ : ∃ s, ({} : Symbols).defineConstant "size" 2 = .ok s :=
    ⟨_, Symbols.defineConstant_of_fresh (Symbols.value?_empty _)⟩
  have hconstant := (Symbols.defineConstant_eq_ok hs).1
  have hcount : s.value? "SIZE" = some 2 := (s.value?_congr hsize).trans hconstant.self
  have hfresh : s.value? "start" = none := by
    rw [hconstant.value, if_neg hne, Symbols.value?_empty]
  obtain ⟨t, ht⟩ := Symbols.exists_defineLabel hfresh 0x4000
  have hgains := (Symbols.defineLabel_eq_ok ht).1
  have hlabel : t.value? "start" = some 0x4000 := hgains.self
  exact ⟨s, t, hs, ht, hcount, hgains.extension _ _ hcount, hlabel,
    (t.value?_congr hstart).trans hlabel⟩

theorem exists_assemble_reserving : ∃ a, assemble {} reserving = .ok a := by
  obtain ⟨s, t, hs, ht, hcount, hcount', hstart, hbranch⟩ := exists_symbols_reserving
  have hvalue {u : Symbols} {name : String} {v : Int} (offset : Int) (h : u.value? name = some v) :
      (Expression.symbol name offset).value u.value? = .ok (v + offset) := by
    rw [Expression.value, h]
  have hlookup : Instruction.lookup (.branch .always) .relative =
      some ⟨.branch .always, .relative, 0xC0, 1⟩ := by decide +kernel
  have hreserve {u : Symbols} (h : u.value? "SIZE" = some 2) :
      Encodes u.value? 0x4000 (.reserve (.symbol "SIZE" 0)) [0, 0] :=
    .reserve (hvalue 0 h) (by decide) (by decide)
  have hback : Encodes t.value? 0x4002
      (.instruction (.branch .always) (.address (.symbol "Start" 0)))
      [0xC0, UInt8.ofInt (0x4000 + 0 - (0x4004 : Nat))] :=
    .instruction hlookup (.relative rfl (hvalue 0 hbranch) (by decide) (by decide))
  have hend : Encodes t.value? 0x4004 (.finish (some (.symbol "start" 2))) [0x01] :=
    .finishAt (hvalue 2 hstart) (by decide) (by decide)
  obtain ⟨l, hl, hemits⟩ : ∃ l, Layout.ofSource 0x4000 reserving = .ok l ∧
      ∀ p ∈ l.lines, ∃ out, emitLine l.symbols p = .ok out := by
    refine ⟨_, Layout.placeAll_eq_ok_iff.mpr ⟨_, readLines_reserving,
      bind_eq_ok_iff.mpr ⟨_, Layout.place_definition rfl rfl rfl (by decide) (by decide) hs,
      bind_eq_ok_iff.mpr ⟨_, Layout.place_labelled (by simp) (hreserve hcount).sizeOf_eq (by decide)
        (by decide) rfl (by decide) ht,
      bind_eq_ok_iff.mpr ⟨_, Layout.place_unlabelled (by simp) hback.sizeOf_eq (by decide)
        (by decide) rfl,
      bind_eq_ok_iff.mpr ⟨_, Layout.place_unlabelled (by simp) hend.sizeOf_eq (by decide)
        (by decide) rfl, rfl⟩⟩⟩⟩⟩, ?_⟩
    intro p hp
    simp only [List.push_toArray, List.cons_append, List.nil_append, List.mem_toArray,
      List.mem_cons, List.not_mem_nil, or_false] at hp
    rcases hp with rfl | rfl | rfl | rfl
    · exact ⟨_, rfl⟩
    · exact (hreserve hcount').exists_emitLine rfl
    · exact hback.exists_emitLine rfl
    · exact hend.exists_emitLine rfl
  obtain ⟨out, hout⟩ := exists_emit hemits { entry := 0x4000, secondMonitor := false }
  exact ⟨_, bind_eq_ok_iff.mpr ⟨l, hl, bind_eq_ok_iff.mpr ⟨out, hout, rfl⟩⟩⟩

end Assembly

theorem exists_assemble_of_isOk (o : AssemblyOptions) (source : String)
    (h : (assemble o source).isOk = true) : ∃ a, assemble o source = .ok a :=
  exists_of_isOk h

end B33
