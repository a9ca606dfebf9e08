import B33.Proofs.Assembly.Listing
import B33.Proofs.Assembly.Names
import Mathlib.Data.List.Induction

/-!
# One pass instead of two

The second walk through a source is there for names that are used before they are defined. A single
walk, which emits each line with what is known by then, accepts the sources that two walks accept and
that are written backwards, and gives the same program. Both go through the same lines in step: after
each line the single walk knows the names that the layout knows, and has emitted what the second walk
will emit with all of them.
-/
namespace B33
open Assembly Source

namespace SinglePass

/-- What is known and what is emitted after a number of lines. -/
structure State where
  symbols : Symbols := {}
  bytes : List UInt8 := []
  entry : UInt16

/-- What comes of a single pass. -/
structure Result where
  bytes : List UInt8
  labels : LabelTable
  entry : UInt16

/-- Defines the label of a line, if there is one. -/
def defineOwn (symbols : Symbols) (line : Line) (address : UInt16) : Except Cause Symbols :=
  match line.label with
  | some name => symbols.defineLabel name address
  | none => .ok symbols

namespace State

def start (origin : UInt16) : State := { entry := origin }

/-- The address after the last byte, which can be 65536. -/
def finish (s : State) (origin : UInt16) : Nat := origin.toNat + s.bytes.length

/-- The state with the names that are known after a line and what the line emits. -/
def after (s : State) (symbols : Symbols) (emitted : Emitted) : State where
  symbols := symbols
  bytes := s.bytes ++ emitted.bytes
  entry := emitted.entry.getD s.entry

/-- Emits what a line stands for, as far as there is room. -/
def append (s : State) (origin : UInt16) (line : Line) (symbols : Symbols) (emitted : Emitted) :
    Except Cause State := do
  let size := emitted.bytes.length
  if 0x10000 < s.finish origin + size ∨ (line.label.isSome ∧ 0xFFFF < s.finish origin) then
    throw .addressOverflow
  if 0xFFFF < s.bytes.length + size then throw .programTooLarge
  return s.after symbols emitted

/-- Evaluates and emits a line at once. Its own label is defined before an operand is looked at, but
after a value to define or a number of bytes to reserve. -/
def next (origin : UInt16) (s : State) (line : Line) : Except Cause State := do
  let address := UInt16.ofNat (s.finish origin)
  match line.statement with
  | none => s.append origin line (← defineOwn s.symbols line address) {}
  | some (.define e) =>
    let n ← e.value s.symbols.value?
    checkRange n (-32768) 0xFFFF
    return { s with symbols := ← s.symbols.defineConstant (line.label.getD "") n }
  | some (.reserve e) =>
    let n ← e.value s.symbols.value?
    checkRange n 0 0xFFFF
    s.append origin line (← defineOwn s.symbols line address)
      { bytes := List.replicate n.toNat 0 }
  | some statement =>
    let symbols ← defineOwn s.symbols line address
    s.append origin line symbols (← emitStatement symbols address statement)

end State

/-- Assembles a source in a single pass. -/
def assemble (origin : UInt16) (source : String) : Except SourceError Result := do
  let s ← Layout.walk (State.next origin) 1 (.start origin) (splitLines source)
  return { bytes := s.bytes, labels := s.symbols.labels, entry := s.entry }

/-- Whether there is room for a line of a given size. -/
def Fits (origin : UInt16) (finish : Nat) (line : Line) (size : Nat) : Prop :=
  ¬(0x10000 < finish + size ∨ (line.label.isSome ∧ 0xFFFF < finish)) ∧
    ¬0xFFFF < finish + size - origin.toNat

theorem append_eq_ok_iff {origin : UInt16} {s s' : State} {line : Line} {symbols : Symbols}
    {emitted : Emitted} :
    s.append origin line symbols emitted = .ok s' ↔
      Fits origin (s.finish origin) line emitted.bytes.length ∧ s' = s.after symbols emitted := by
  have hlength : s.finish origin + emitted.bytes.length - origin.toNat =
      s.bytes.length + emitted.bytes.length := by
    rw [State.finish]
    omega
  unfold State.append
  simp only [guard_eq_ok_iff, pure_eq_ok_iff]
  rw [Fits, hlength, and_assoc]
  exact and_congr_right fun _ => and_congr_right fun _ => eq_comm

theorem placeSized_eq_ok_iff {origin : UInt16} {l l' : Layout} {line : Line} {size : Nat} :
    l.placeSized origin line size = .ok l' ↔
      Fits origin l.finish line size ∧
        ∃ symbols, defineOwn l.symbols line (UInt16.ofNat l.finish) = .ok symbols ∧
          { lines := l.lines.push { line, address := UInt16.ofNat l.finish }, symbols,
            finish := l.finish + size } = l' := by
  obtain ⟨lines, symbols, finish⟩ := l
  unfold Layout.placeSized defineOwn
  simp only [guard_eq_ok_iff]
  rw [Fits, and_assoc]
  refine and_congr_right fun _ => and_congr_right fun _ => ?_
  cases line.label with
  | none => simp only [ok_bind, pure_eq_ok_iff, Except.ok.injEq, exists_eq_left']
  | some name => simp only [bind_eq_ok_iff, pure_eq_ok_iff]

/-- What a line emits has the size that the layout reserves for it. -/
theorem sizeOf_of_emitStatement {symbols known : Symbols} {address : UInt16}
    {statement : Statement} {out : Emitted} (hd : ∀ e, statement ≠ .define e)
    (hr : ∀ e, statement ≠ .reserve e)
    (h : emitStatement symbols address statement = .ok out) :
    sizeOf known statement = .ok out.bytes.length := by
  have hsize : ∃ size, sizeOf symbols statement = .ok size := by
    cases statement with
    | define e => exact ⟨_, rfl⟩
    | reserve e => exact (hr e rfl).elim
    | instruction m operand =>
        obtain ⟨i, hi, -⟩ := bind_eq_ok_iff.mp h
        exact ⟨_, map_eq_ok_iff.mpr ⟨i, hi, rfl⟩⟩
    | string text => exact ⟨_, rfl⟩
    | bytes es => exact ⟨_, rfl⟩
    | finish e => exact ⟨_, rfl⟩
  obtain ⟨size, hsize⟩ := hsize
  have hknown : sizeOf known statement = sizeOf symbols statement := by
    cases statement with
    | reserve e => exact (hr e rfl).elim
    | define e => rfl
    | instruction m operand => rfl
    | string text => rfl
    | bytes es => rfl
    | finish e => rfl
  rw [hknown]
  exact (emitStatement_encodes hd hsize h).sizeOf_eq

theorem emitLine_eq_ok_iff {symbols : Symbols} {p : PlacedLine} {statement : Statement}
    {emitted : Emitted} (hs : p.line.statement = some statement) :
    emitLine symbols p = .ok emitted ↔
      emitStatement symbols p.address statement = .ok emitted := by
  unfold emitLine
  rw [hs]
  dsimp only
  cases emitStatement symbols p.address statement with
  | error cause => exact iff_of_false nofun nofun
  | ok out => rw [Except.ok.injEq, Except.ok.injEq]

theorem extends_of_defineOwn {symbols known : Symbols} {line : Line} {address : UInt16}
    (h : defineOwn symbols line address = .ok known) : symbols.Extends known := by
  unfold defineOwn at h
  split at h
  · exact (Symbols.defineLabel_eq_ok h).1.extension
  · cases h
    exact .refl _

section
variable {origin : UInt16} {l : Layout} {s s' : State} {line : Line}

/-- A line whose size is settled can be emitted before it is placed. -/
theorem exists_emit_iff {statement : Statement} {address : UInt16}
    (hd : ∀ e, statement ≠ .define e) (hr : ∀ e, statement ≠ .reserve e) :
    (∃ t, defineOwn l.symbols line address = .ok t ∧
        ∃ out, emitStatement t address statement = .ok out ∧
          Fits origin l.finish line out.bytes.length ∧ s' = s.after t out) ↔
      ∃ (l' : Layout) (out : Emitted), (∃ size, Assembly.sizeOf l.symbols statement = .ok size ∧
          Fits origin l.finish line size ∧
          ∃ t, defineOwn l.symbols line address = .ok t ∧
            { lines := l.lines.push { line, address }, symbols := t,
              finish := l.finish + size } = l') ∧
        emitStatement l'.symbols address statement = .ok out ∧ s' = s.after l'.symbols out := by
  constructor
  · rintro ⟨t, ht, out, hout, hfits, rfl⟩
    exact ⟨_, out, ⟨_, sizeOf_of_emitStatement hd hr hout, hfits, t, ht, rfl⟩, hout, rfl⟩
  · rintro ⟨_, out, ⟨size, hsize, hfits, t, ht, rfl⟩, hout, rfl⟩
    rw [sizeOf_of_emitStatement hd hr hout] at hsize
    cases hsize
    exact ⟨t, ht, out, hout, hfits, rfl⟩

/-- One line in a single pass is one line in each of two passes, the second of which knows the names
up to the line. -/
theorem next_eq_ok_iff (hsymbols : s.symbols = l.symbols) (hfinish : s.finish origin = l.finish) :
    s.next origin line = .ok s' ↔ ∃ l' emitted, l.place origin line = .ok l' ∧
      emitLine l'.symbols { line, address := UInt16.ofNat l.finish } = .ok emitted ∧
      s' = s.after l'.symbols emitted := by
  unfold State.next Layout.place
  rw [hsymbols, hfinish]
  cases hs : line.statement with
  | none =>
      have hemit (symbols : Symbols) :
          emitLine symbols { line, address := UInt16.ofNat l.finish } = .ok {} := by
        unfold emitLine
        rw [hs]
      simp only [bind_eq_ok_iff, append_eq_ok_iff, placeSized_eq_ok_iff, hfinish, hemit]
      constructor
      · rintro ⟨t, ht, hfits, rfl⟩
        exact ⟨_, {}, ⟨hfits, t, ht, rfl⟩, rfl, rfl⟩
      · rintro ⟨_, _, ⟨hfits, t, ht, rfl⟩, ⟨⟩, rfl⟩
        exact ⟨t, ht, hfits, rfl⟩
  | some statement =>
      have hemit (symbols : Symbols) (emitted : Emitted) :
          emitLine symbols { line, address := UInt16.ofNat l.finish } = .ok emitted ↔
            emitStatement symbols (UInt16.ofNat l.finish) statement = .ok emitted :=
        emitLine_eq_ok_iff hs
      cases statement with
      | define e =>
          simp only [bind_eq_ok_iff, hemit, pure_eq_ok_iff, Layout.placeDefinition]
          constructor
          · rintro ⟨n, hn, u, hu, t, ht, rfl⟩
            exact ⟨_, {}, ⟨n, hn, u, hu, t, ht, rfl⟩, rfl, by simp [State.after]⟩
          · rintro ⟨_, _, ⟨n, hn, u, hu, t, ht, rfl⟩, ⟨⟩, rfl⟩
            exact ⟨n, hn, u, hu, t, ht, by simp [State.after]⟩
      | reserve e =>
          simp only [bind_eq_ok_iff, append_eq_ok_iff, placeSized_eq_ok_iff, hfinish, hemit,
            Assembly.sizeOf, emitStatement, pure_eq_ok_iff, List.length_replicate]
          constructor
          · rintro ⟨n, hn, u, hu, t, ht, hfits, rfl⟩
            have hlater := value_mono (extends_of_defineOwn ht) hn
            exact ⟨_, _, ⟨_, ⟨n, hn, u, hu, rfl⟩, hfits, t, ht, rfl⟩, ⟨n, hlater, rfl⟩, rfl⟩
          · rintro ⟨_, _, ⟨_, ⟨n, hn, u, hu, rfl⟩, hfits, t, ht, rfl⟩, ⟨n', hlater, rfl⟩, rfl⟩
            rw [value_mono (extends_of_defineOwn ht) hn] at hlater
            cases hlater
            exact ⟨n, hn, u, hu, t, ht, hfits, rfl⟩
      | instruction m operand | string text | bytes es | finish e =>
          simp only [bind_eq_ok_iff, append_eq_ok_iff, placeSized_eq_ok_iff, hfinish, hemit]
          exact exists_emit_iff (by simp) (by simp)

theorem names_eq {statement : Statement} (hs : line.statement = some statement) :
    line.names = statement.names := by
  rw [Line.names, hs]
  rfl

/-- The names that are known stand on the lines before. -/
theorem exists_labelled_of_value (hv : l.Valid origin) {name : String} {v : Int}
    (h : l.symbols.value? name = some v) :
    ∃ earlier ∈ l.lines.toList.map (·.line), earlier.IsLabelled name := by
  obtain ⟨p, hp, label, hlabel, hfold, -⟩ := hv.defined name v h
  exact ⟨p.line, List.mem_map_of_mem hp, label, hlabel, hfold⟩

theorem exists_value_of_labelled (hv : l.Valid origin) {name : String} {earlier : Line}
    (hmem : earlier ∈ l.lines.toList.map (·.line)) (h : earlier.IsLabelled name) :
    ∃ v, l.symbols.value? name = some v := by
  obtain ⟨p, hp, rfl⟩ := List.mem_map.mp hmem
  obtain ⟨label, hlabel, hfold⟩ := h
  obtain ⟨v, -, hvalue⟩ := hv.labelled p hp label hlabel
  exact ⟨v, (l.symbols.value?_congr hfold).symm.trans hvalue⟩

/-- A line that is emitted with the names that are known by then uses no others. -/
theorem looksBack_of_emitLine {l' : Layout} {size : Nat} {address : UInt16} {emitted : Emitted}
    (hv : l.Valid origin) (hstep : l.Step origin line size l')
    (hemit : emitLine l'.symbols { line, address } = .ok emitted) :
    line.LooksBack (l.lines.toList.map (·.line)) := by
  intro name hname
  have hlater {v : Int} (h : l'.symbols.value? name = some v) :
      (∃ earlier ∈ l.lines.toList.map (·.line), earlier.IsLabelled name) ∨
        line.IsLabelled name := by
    cases hlabel : line.label with
    | none =>
        rw [hstep.unlabelled hlabel] at h
        exact .inl (exists_labelled_of_value hv h)
    | some label =>
        obtain ⟨w, -, hgains⟩ := hstep.labelled label hlabel
        rw [hgains.value] at h
        split_ifs at h with hfold
        · exact .inr ⟨label, hlabel, hfold⟩
        · exact .inl (exists_labelled_of_value hv h)
  cases hs : line.statement with
  | none =>
      rw [Line.names, hs] at hname
      cases hname
  | some statement =>
      rw [names_eq hs] at hname
      rw [emitLine_eq_ok_iff hs] at hemit
      cases statement with
      | define e =>
          obtain ⟨v, hvalue, -⟩ := hstep.value e hs
          obtain ⟨w, hw⟩ := exists_value_of_mem hvalue name hname
          exact .inl (exists_labelled_of_value hv hw)
      | reserve e =>
          have hsize := hstep.size_eq
          simp only [lineSize, hs] at hsize
          obtain ⟨v, hvalue, -⟩ := bind_eq_ok_iff.mp hsize
          obtain ⟨w, hw⟩ := exists_value_of_mem hvalue name hname
          exact .inl (exists_labelled_of_value hv hw)
      | instruction m operand | string text | bytes es | finish e =>
          obtain ⟨w, hw⟩ := exists_value_of_emitStatement (by simp) hemit name hname
          refine (hlater hw).imp_right fun hown => ⟨?_, hown⟩
          rw [Line.knowsLabel, hs]

theorem foldlM_push_congr {symbols known : Symbols} {ps : List PlacedLine}
    (h : ∀ p ∈ ps, ∀ name ∈ p.line.names, symbols.value? name = known.value? name)
    (out : Output) :
    ps.foldlM (Output.push symbols) out = ps.foldlM (Output.push known) out := by
  have hemit : ∀ p ∈ ps, emitLine symbols p = emitLine known p := by
    intro p hp
    unfold emitLine
    cases hs : p.line.statement with
    | none => rfl
    | some statement =>
        have hcongr : emitStatement symbols p.address statement =
            emitStatement known p.address statement :=
          emitStatement_congr fun name hname => h p hp name (names_eq hs ▸ hname)
        simp only [hcongr]
  clear h
  induction ps generalizing out with
  | nil => rfl
  | cons p ps ih =>
      have hpush : out.push symbols p = out.push known p := by
        rw [Output.push, Output.push, hemit p List.mem_cons_self]
      rw [List.foldlM_cons, List.foldlM_cons, hpush]
      congr 1
      funext next
      exact ih next fun q hq => hemit q (List.mem_cons_of_mem _ hq)

/-- What is emitted with the names that are known by then stays the same when more are known. -/
theorem emit_of_extends {known : Symbols} {out : Output} (hv : l.Valid origin)
    (hback : Backward (l.lines.toList.map (·.line))) (hknown : l.symbols.Extends known) :
    l.lines.toList.foldlM (Output.push known) out = l.emit out := by
  rw [Layout.emit, ← Array.foldlM_toList]
  refine foldlM_push_congr (fun p hp name hname => ?_) out
  obtain ⟨earlier, hmem, hlabelled⟩ := hback.exists_labelled (List.mem_map_of_mem hp) hname
  obtain ⟨v, hvalue⟩ := exists_value_of_labelled hv hmem hlabelled
  rw [hvalue, hknown name v hvalue]

theorem push_eq_ok_iff {symbols : Symbols} {p : PlacedLine} {out out' : Output} :
    out.push symbols p = .ok out' ↔ ∃ emitted, emitLine symbols p = .ok emitted ∧
      { listing := out.listing.push { p with bytes := emitted.bytes }
        entry := emitted.entry.getD out.entry
        secondMonitor := out.secondMonitor || emitted.secondMonitor } = out' := by
  unfold Output.push
  simp only [bind_eq_ok_iff, pure_eq_ok_iff]

/-- The state of a single pass that has emitted what two passes have, and knows as much. -/
def reached (l : Layout) (out : Output) : State where
  symbols := l.symbols
  bytes := out.listing.toList.flatMap (·.bytes)
  entry := out.entry

/-- The second walk emits one more line behind what it emitted before. -/
theorem emit_of_step {l' : Layout} {size : Nat} (hv : l.Valid origin)
    (hback : Backward (l.lines.toList.map (·.line))) (hstep : l.Step origin line size l')
    (start : Output) :
    l'.emit start = l.emit start >>= fun out =>
      out.push l'.symbols { line, address := UInt16.ofNat l.finish } := by
  rw [← emit_of_extends hv hback hstep.extension, Layout.emit, ← Array.foldlM_toList,
    hstep.toList_eq, List.foldlM_append]
  congr 1
  funext out
  rw [List.foldlM_cons]
  exact bind_pure _

/-- One more line of a source that is written backwards. -/
theorem next_reached_eq_ok_iff {start out : Output} (hv : l.Valid origin)
    (hlabel : line.isDefinition → line.label.isSome)
    (hback : Backward (l.lines.toList.map (·.line))) (hempty : start.listing = #[])
    (hout : l.emit start = .ok out) :
    (reached l out).next origin line = .ok s' ↔ ∃ l' out', l.place origin line = .ok l' ∧
      l'.emit start = .ok out' ∧ s' = reached l' out' ∧
      line.LooksBack (l.lines.toList.map (·.line)) := by
  have hfinish : (reached l out).finish origin = l.finish :=
    (hv.tiles.lists (lists_of_emit hempty hout) hv.values).2.1.symm
  have hemit {l' : Layout} {size : Nat} (hstep : l.Step origin line size l') :
      l'.emit start = out.push l'.symbols { line, address := UInt16.ofNat l.finish } := by
    rw [emit_of_step hv hback hstep, hout, ok_bind]
  rw [next_eq_ok_iff rfl hfinish]
  constructor
  · rintro ⟨l', emitted, hplace, hline, rfl⟩
    obtain ⟨size, hstep⟩ := Layout.place_step hlabel hplace
    refine ⟨l', _, hplace, (hemit hstep).trans (push_eq_ok_iff.mpr ⟨emitted, hline, rfl⟩), ?_,
      looksBack_of_emitLine hv hstep hline⟩
    simp [State.after, reached]
  · rintro ⟨l', out', hplace, hout', rfl, -⟩
    obtain ⟨size, hstep⟩ := Layout.place_step hlabel hplace
    rw [hemit hstep] at hout'
    obtain ⟨emitted, hline, rfl⟩ := push_eq_ok_iff.mp hout'
    exact ⟨l', emitted, hplace, hline, by simp [State.after, reached]⟩

/-- A single pass over some lines is two passes over them, if they are written backwards. -/
theorem foldlM_next_eq_ok_iff (start : Output) (hempty : start.listing = #[])
    (hentry : start.entry = origin) {lines : List Line}
    (hlabels : ∀ line ∈ lines, line.isDefinition → line.label.isSome) :
    lines.foldlM (State.next origin) (.start origin) = .ok s ↔
      ∃ l out, lines.foldlM (Layout.place origin) (Layout.start origin) = .ok l ∧
        l.emit start = .ok out ∧ s = reached l out ∧ Backward lines := by
  induction lines using List.reverseRecOn generalizing s with
  | nil =>
      constructor
      · rintro ⟨⟩
        refine ⟨_, start, rfl, rfl, ?_, fun k hk => absurd hk (Nat.not_lt_zero k)⟩
        simp [reached, hempty, hentry, State.start, Layout.start]
      · rintro ⟨_, _, ⟨⟩, ⟨⟩, rfl, -⟩
        simp [reached, hempty, hentry, State.start, Layout.start, pure, Except.pure]
  | append_singleton lines line ih =>
      have hlines : ∀ x ∈ lines, x.isDefinition → x.label.isSome :=
        fun x hx => hlabels x (List.mem_append_left _ hx)
      have hline := hlabels line (List.mem_append_right _ (List.mem_singleton_self _))
      have hvalid {l : Layout}
          (h : lines.foldlM (Layout.place origin) (Layout.start origin) = .ok l) :
          l.Valid origin ∧ l.lines.toList.map (·.line) = lines := by
        obtain ⟨hv, hmap⟩ := Layout.foldlM_place_valid hlines (Layout.valid_start origin) h
        exact ⟨hv, hmap⟩
      simp only [List.foldlM_append, List.foldlM_cons, List.foldlM_nil, bind_pure, bind_eq_ok_iff,
        ih hlines, backward_append_singleton]
      constructor
      · rintro ⟨_, ⟨l, out, hplaced, hout, rfl, hback⟩, hnext⟩
        obtain ⟨hv, rfl⟩ := hvalid hplaced
        obtain ⟨l', out', hplace, hout', rfl, hlooks⟩ :=
          (next_reached_eq_ok_iff hv hline hback hempty hout).mp hnext
        exact ⟨l', out', ⟨l, hplaced, hplace⟩, hout', rfl, hback, hlooks⟩
      · rintro ⟨l', out', ⟨l, hplaced, hplace⟩, hout', rfl, hback, hlooks⟩
        obtain ⟨hv, rfl⟩ := hvalid hplaced
        obtain ⟨size, hstep⟩ := Layout.place_step hline hplace
        have hemit := hout'
        rw [emit_of_step hv hback hstep] at hemit
        obtain ⟨out, hout, -⟩ := bind_eq_ok_iff.mp hemit
        exact ⟨_, ⟨l, out, hplaced, hout, rfl, hback⟩,
          (next_reached_eq_ok_iff hv hline hback hempty hout).mpr
            ⟨l', out', hplace, hout', rfl, hlooks⟩⟩

end

end SinglePass

end B33
