import B33.Proofs.Assembly.Listing
import B33.Proofs.Source.Grammar

/-!
# Written sources

How a source is assembled when it is known of each line what it is read as and which bytes it was
written for. If the lines lie one behind the other in memory and no label is written twice, the
layout cannot fail and gives each line the address it was written for. The emission gives the bytes,
or fails at the first line that does not give its own.
-/
namespace B33.Assembly
open Source

/-- A line of a source, with the bytes it is written for and their address. -/
structure Written where
  text : String
  label : Option String := none
  statement : Option Statement := none
  address : UInt16
  bytes : List UInt8 := []
  entry : Option UInt16 := none

namespace Written

/-- The line takes as many bytes as it has, whatever names stand for. -/
def Sized (w : Written) : Prop :=
  match w.statement with
  | none => w.bytes = []
  | some s => (∀ e, s ≠ .define e) ∧ ∀ symbols, sizeOf symbols s = .ok w.bytes.length

/-- The line gives the bytes and the entry that it was written for. -/
def Emits (symbols : Symbols) (w : Written) : Prop :=
  match w.statement with
  | none => w.bytes = [] ∧ w.entry = none
  | some s => ∃ out, emitStatement symbols w.address s = .ok out ∧ out.bytes = w.bytes ∧
      out.entry = w.entry

theorem emits_of_none {symbols : Symbols} {w : Written} (hs : w.statement = none)
    (hb : w.bytes = []) (he : w.entry = none) : w.Emits symbols := by
  rw [Emits, hs]
  exact ⟨hb, he⟩

theorem Sized.ne_define {w : Written} (h : w.Sized) (e : Expression) :
    w.statement ≠ some (.define e) := by
  intro hs
  rw [Sized, hs] at h
  exact h.1 e rfl

theorem Sized.lineSize_eq {w : Written} {line : Line} (h : w.Sized)
    (hs : line.statement = w.statement) (symbols : Symbols) :
    lineSize symbols line = .ok w.bytes.length := by
  unfold lineSize
  rw [hs]
  unfold Sized at h
  cases hw : w.statement with
  | none =>
      rw [hw] at h
      dsimp only at h ⊢
      rw [h]
      rfl
  | some s =>
      rw [hw] at h
      exact h.2 symbols

end Written

/-- Lines that lie one behind the other from an address on, with no label at the end of memory. -/
inductive Contiguous : Nat → List Written → Nat → Prop
  | nil (n : Nat) : Contiguous n [] n
  | cons {n m : Nat} {w : Written} {ws : List Written} : w.Sized → w.address = UInt16.ofNat n →
      (w.label.isSome → n ≤ 0xFFFF) → Contiguous (n + w.bytes.length) ws m →
      Contiguous n (w :: ws) m

theorem Contiguous.le {n m : Nat} {ws : List Written} (h : Contiguous n ws m) : n ≤ m := by
  induction h with
  | nil => exact Nat.le_refl _
  | cons _ _ _ _ ih => omega

theorem Contiguous.append {n m k : Nat} {ws vs : List Written} (h : Contiguous n ws m)
    (hv : Contiguous m vs k) : Contiguous n (ws ++ vs) k := by
  induction h with
  | nil => exact hv
  | cons hsize haddress hlabel _ ih => exact .cons hsize haddress hlabel (ih hv)

/-- Lines that written lines are read as, numbered from `number` on. -/
inductive Reads : Nat → List Written → List Line → Prop
  | nil (number : Nat) : Reads number [] []
  | cons {number : Nat} {w : Written} {line : Line} {ws : List Written} {lines : List Line} :
      line.number = number → line.label = w.label → line.statement = w.statement →
      Reads (number + 1) ws lines → Reads number (w :: ws) (line :: lines)

theorem Reads.labels_eq {number : Nat} {ws : List Written} {lines : List Line}
    (h : Reads number ws lines) : lines.filterMap (·.label) = ws.filterMap (·.label) := by
  induction h with
  | nil => rfl
  | cons _ hlabel _ _ ih => rw [List.filterMap_cons, List.filterMap_cons, hlabel, ih]

theorem exists_readLines {number : Nat} {ws : List Written}
    (hr : ∀ w ∈ ws, ReadsAs w.text w.label w.statement)
    (hl : ∀ w ∈ ws.dropLast, ∀ e, w.statement ≠ some (.finish e)) :
    ∃ lines, Layout.readLines number (ws.map (·.text)) = .ok lines ∧ Reads number ws lines := by
  induction ws generalizing number with
  | nil => exact ⟨[], rfl, .nil _⟩
  | cons w ws ih =>
      obtain ⟨line, hline, hnumber, hlabel, hstatement, -⟩ := hr w List.mem_cons_self number
      have hread (lines : List Line) (h : Reads (number + 1) ws lines) :
          Reads number (w :: ws) (line :: lines) := .cons hnumber hlabel hstatement h
      rw [List.map_cons, Layout.readLines, hline, ok_bind]
      -- Reading stops at the end of the source, which only the last of the lines can be.
      by_cases hws : ws = []
      · subst hws
        refine ⟨[line], ?_, hread [] (.nil _)⟩
        split_ifs <;> rfl
      · rw [List.dropLast_cons_of_ne_nil hws] at hl
        obtain ⟨hw, hl⟩ := List.forall_mem_cons.mp hl
        have hlast : Layout.isLast line = false := by
          unfold Layout.isLast
          rw [hstatement]
          split
          · next e he => exact (hw e he).elim
          · rfl
        obtain ⟨lines, hlines, h⟩ := @ih (number + 1) (fun x hx => hr x (.tail _ hx)) hl
        refine ⟨line :: lines, ?_, hread lines h⟩
        rw [hlast, hlines]
        rfl

/-- A line can be placed if there is room for it and its label is new. -/
theorem Layout.exists_place {origin : UInt16} {l : Layout} {line : Line} {size : Nat}
    (hd : ∀ e, line.statement ≠ some (.define e)) (hs : lineSize l.symbols line = .ok size)
    (hm : l.finish + size ≤ 0x10000) (ho : l.finish + size ≤ origin.toNat + 0xFFFF)
    (hl : ∀ name, line.label = some name → l.finish ≤ 0xFFFF ∧ l.symbols.value? name = none) :
    ∃ l', l.place origin line = .ok l' := by
  obtain ⟨lines, symbols, finish⟩ := l
  cases hname : line.label with
  | none => exact ⟨_, place_unlabelled hd hs hm ho hname⟩
  | some name =>
      obtain ⟨hlabel, hfresh⟩ := hl name hname
      obtain ⟨t, ht⟩ := Symbols.exists_defineLabel hfresh (UInt16.ofNat finish)
      exact ⟨_, place_labelled hd hs hm ho hname hlabel ht⟩

/-- A name that no placed line has in either case is new. -/
theorem Layout.Valid.fresh {origin : UInt16} {l : Layout} (hv : l.Valid origin) {name : String}
    (h : foldCase name ∉ (l.lines.toList.filterMap (·.line.label)).map foldCase) :
    l.symbols.value? name = none := by
  by_contra hne
  obtain ⟨v, hvalue⟩ := Option.ne_none_iff_exists'.mp hne
  obtain ⟨p, hp, label, hlabel, hfold, -⟩ := hv.defined name v hvalue
  exact h (List.mem_map.mpr ⟨label, List.mem_filterMap.mpr ⟨p, hp, hlabel⟩, hfold⟩)

/-- A written line is placed with its bytes, and the labels of the lines after it stay new. -/
theorem exists_place_written {origin : UInt16} {l : Layout} {w : Written} {line : Line}
    {lines : List Line} (hsize : w.Sized) (hlabel : line.label = w.label)
    (hstatement : line.statement = w.statement) (hfits : w.label.isSome → l.finish ≤ 0xFFFF)
    (hm : l.finish + w.bytes.length ≤ 0x10000)
    (ho : l.finish + w.bytes.length ≤ origin.toNat + 0xFFFF) (hv : l.Valid origin)
    (hn : ((l.lines.toList.filterMap (·.line.label) ++
      (line :: lines).filterMap (·.label)).map foldCase).Nodup) :
    ∃ next, l.place origin line = .ok next ∧ next.finish = l.finish + w.bytes.length ∧
      next.Valid origin ∧ ((next.lines.toList.filterMap (·.line.label) ++
        lines.filterMap (·.label)).map foldCase).Nodup := by
  have hlength := hsize.lineSize_eq hstatement l.symbols
  have hd : ∀ e, line.statement ≠ some (.define e) := by
    rw [hstatement]
    exact hsize.ne_define
  have hnew : ∀ name, line.label = some name →
      l.finish ≤ 0xFFFF ∧ l.symbols.value? name = none := by
    intro name hname
    refine ⟨hfits ?_, hv.fresh ?_⟩
    · rw [← hlabel, hname]
      rfl
    · rw [List.filterMap_cons, hname, List.map_append, List.map_cons] at hn
      have hdisjoint := (List.nodup_append.mp hn).2.2
      exact fun hmem => hdisjoint _ hmem _ List.mem_cons_self rfl
  obtain ⟨next, hnext⟩ := Layout.exists_place hd hlength hm ho hnew
  have hdefinition : line.isDefinition → line.label.isSome := by
    intro hdef
    obtain ⟨e, he⟩ := Line.isDefinition_iff.mp hdef
    exact (hd e he).elim
  -- What a step keeps is known of the size that the step found; that can only be the written one.
  obtain ⟨size, hstep⟩ := Layout.place_step hdefinition hnext
  have hsizes : .ok size = (.ok w.bytes.length : Except Cause Nat) := by
    rw [← hstep.size_eq, hlength]
  refine ⟨next, hnext, ?_, hstep.valid hv, ?_⟩
  · rw [hstep.finish_eq, Except.ok.inj hsizes]
  · have hone : [PlacedLine.mk line (UInt16.ofNat l.finish)].filterMap (·.line.label) ++
        lines.filterMap (·.label) = (line :: lines).filterMap (·.label) := by
      cases hname : line.label <;> simp [hname]
    rw [hstep.toList_eq, List.filterMap_append, List.append_assoc, hone]
    exact hn

theorem exists_foldlM_place {origin : UInt16} {number m : Nat} {ws : List Written}
    {lines : List Line} {l : Layout} (hr : Reads number ws lines) (hc : Contiguous l.finish ws m)
    (hm : m ≤ 0x10000) (ho : m ≤ origin.toNat + 0xFFFF) (hv : l.Valid origin)
    (hn : ((l.lines.toList.filterMap (·.line.label) ++ lines.filterMap (·.label)).map
      foldCase).Nodup) :
    ∃ l', lines.foldlM (Layout.place origin) l = .ok l' := by
  induction hr generalizing l with
  | nil => exact ⟨l, rfl⟩
  | @cons number w line ws lines _ hlabel hstatement _ ih =>
      cases hc with
      | cons hsize _ hfits hc =>
          have hle := hc.le
          obtain ⟨next, hnext, hfinish, hvalid, hnames⟩ :=
            @exists_place_written origin l w line lines hsize hlabel hstatement hfits
              (by omega) (by omega) hv hn
          rw [← hfinish] at hc
          obtain ⟨l', hl'⟩ := ih hc hvalid hnames
          refine ⟨l', ?_⟩
          rw [List.foldlM_cons]
          exact bind_eq_ok_iff.mpr ⟨next, hnext, hl'⟩

/-- Placed lines that written lines became. -/
inductive Laid : Nat → List Written → List PlacedLine → Prop
  | nil (number : Nat) : Laid number [] []
  | cons {number : Nat} {w : Written} {p : PlacedLine} {ws : List Written}
      {ps : List PlacedLine} : p.line.number = number → p.line.label = w.label →
      p.line.statement = w.statement → p.address = w.address → Laid (number + 1) ws ps →
      Laid number (w :: ws) (p :: ps)

/-- Lines that lie one behind the other lie where they were written for. -/
theorem Tiles.laid {symbols : Symbols} {number n m k : Nat} {ws : List Written}
    {ps : List PlacedLine} (ht : Tiles symbols n ps k) (hr : Reads number ws (ps.map (·.line)))
    (hc : Contiguous n ws m) : Laid number ws ps := by
  induction ht generalizing number ws with
  | nil =>
      cases hr
      exact .nil _
  | cons hs ha _ ih =>
      cases hr with
      | cons hnumber hlabel hstatement hr =>
          cases hc with
          | cons hsize haddress _ hc =>
              rw [hsize.lineSize_eq hstatement] at hs
              cases hs
              exact .cons hnumber hlabel hstatement (ha.trans haddress.symm) (ih hr hc)

/-- A source that was written to be laid out from an address on. -/
structure Writes (origin : UInt16) (source : String) (ws : List Written) : Prop where
  lines_eq : splitLines source = ws.map (·.text)
  reads : ∀ w ∈ ws, ReadsAs w.text w.label w.statement
  last : ∀ w ∈ ws.dropLast, ∀ e, w.statement ≠ some (.finish e)
  fits : ∃ m ≤ 0x10000, m ≤ origin.toNat + 0xFFFF ∧ Contiguous origin.toNat ws m
  names : ((ws.filterMap (·.label)).map foldCase).Nodup

theorem Writes.exists_layout {origin : UInt16} {source : String} {ws : List Written}
    (h : Writes origin source ws) :
    ∃ l, Layout.ofSource origin source = .ok l ∧ l.Valid origin ∧ Laid 1 ws l.lines.toList := by
  obtain ⟨m, hm, ho, hc⟩ := h.fits
  obtain ⟨lines, hlines, hreads⟩ := @exists_readLines 1 ws h.reads h.last
  have hvalid := Layout.valid_start origin
  have hnames : (((Layout.start origin).lines.toList.filterMap (·.line.label) ++
      lines.filterMap (·.label)).map foldCase).Nodup := by
    rw [hreads.labels_eq]
    exact h.names
  obtain ⟨l, hl⟩ := exists_foldlM_place hreads hc hm ho hvalid hnames
  have hsource : Layout.ofSource origin source = .ok l := by
    rw [Layout.ofSource, h.lines_eq]
    exact Layout.placeAll_eq_ok_iff.mpr ⟨lines, hlines, hl⟩
  obtain ⟨hv, hall⟩ := ofSource_valid hsource
  rw [h.lines_eq, hlines] at hall
  refine ⟨l, hsource, hv, hv.tiles.laid ?_ hc⟩
  rw [← Except.ok.inj hall]
  exact hreads

namespace Laid
variable {symbols : Symbols} {number : Nat} {w : Written} {ws before after : List Written}
  {ps : List PlacedLine}

theorem exists_placed (h : Laid number ws ps) (hw : w ∈ ws) :
    ∃ p ∈ ps, p.line.label = w.label ∧ p.line.statement = w.statement ∧ p.address = w.address := by
  induction h with
  | nil => cases hw
  | cons _ hlabel hstatement haddress _ ih =>
      rcases List.mem_cons.mp hw with rfl | hw
      · exact ⟨_, List.mem_cons_self, hlabel, hstatement, haddress⟩
      · obtain ⟨p, hp, hall⟩ := ih hw
        exact ⟨p, .tail _ hp, hall⟩

/-- A label that stands alone on its line stands for the address it was written for. -/
theorem value?_eq {origin : UInt16} {l : Layout} {name : String} (hv : l.Valid origin)
    (h : Laid number ws l.lines.toList) (hw : w ∈ ws) (hs : w.statement = none)
    (hl : w.label = some name) : l.symbols.value? name = some (w.address.toNat : Int) := by
  obtain ⟨p, hp, hlabel, hstatement, haddress⟩ := h.exists_placed hw
  obtain ⟨v, hvalue, hname⟩ := hv.labelled p hp name (hlabel.trans hl)
  rw [Line.labelValue, hstatement, hs] at hvalue
  cases hvalue
  rw [hname, haddress]

theorem emitLine_eq {p : PlacedLine} (hs : p.line.statement = w.statement)
    (ha : p.address = w.address) (h : w.Emits symbols) :
    ∃ out, emitLine symbols p = .ok out ∧ out.bytes = w.bytes ∧ out.entry = w.entry := by
  unfold Written.Emits at h
  unfold emitLine
  rw [hs, ha]
  cases hw : w.statement with
  | none =>
      rw [hw] at h
      exact ⟨_, rfl, h.1.symm, h.2.symm⟩
  | some s =>
      rw [hw] at h
      obtain ⟨out, hout, h⟩ := h
      dsimp only
      rw [hout]
      exact ⟨out, rfl, h⟩

theorem foldlM_push (h : Laid number ws ps) (he : ∀ w ∈ ws, w.Emits symbols) (start : Output) :
    ∃ out, ps.foldlM (Output.push symbols) start = .ok out ∧
      out.listing.toList.flatMap (·.bytes) =
        start.listing.toList.flatMap (·.bytes) ++ ws.flatMap (·.bytes) ∧
      out.entry = ws.foldl (fun e w => w.entry.getD e) start.entry := by
  induction h generalizing start with
  | nil => exact ⟨start, rfl, by simp, rfl⟩
  | @cons number w p ws ps _ _ hstatement haddress _ ih =>
      obtain ⟨hw, hws⟩ := List.forall_mem_cons.mp he
      obtain ⟨emitted, hemitted, hbytes, hentry⟩ := emitLine_eq hstatement haddress hw
      obtain ⟨out, hout, hall, hlast⟩ := ih hws
        { listing := start.listing.push { p with bytes := emitted.bytes }
          entry := emitted.entry.getD start.entry
          secondMonitor := start.secondMonitor || emitted.secondMonitor }
      refine ⟨out, ?_, ?_, ?_⟩
      · rw [List.foldlM_cons, Output.push, hemitted]
        exact hout
      · rw [hall, hbytes]
        simp
      · rw [hlast, hentry]
        rfl

theorem foldlM_push_error {s : Statement} {cause : Cause}
    (h : Laid number (before ++ w :: after) ps) (he : ∀ x ∈ before, x.Emits symbols)
    (hs : w.statement = some s) (hc : emitStatement symbols w.address s = .error cause)
    (start : Output) :
    ps.foldlM (Output.push symbols) start = .error ⟨number + before.length, cause⟩ := by
  induction before generalizing number ps start with
  | nil =>
      cases h with
      | cons hnumber _ hstatement haddress _ =>
          rw [List.foldlM_cons, Output.push, emitLine, hstatement, hs, haddress]
          dsimp only
          rw [hc, hnumber]
          rfl
  | cons x before ih =>
      cases h with
      | cons _ _ hstatement haddress h =>
          obtain ⟨hx, hbefore⟩ := List.forall_mem_cons.mp he
          obtain ⟨emitted, hemitted, -⟩ := emitLine_eq hstatement haddress hx
          rw [List.foldlM_cons, Output.push, hemitted, ok_bind, pure_bind, ih h hbefore,
            List.length_cons, Nat.add_assoc, Nat.add_comm 1]

end Laid

section
variable {o : AssemblyOptions} {source : String} {ws : List Written} {l : Layout}
  (hl : Layout.ofSource o.origin source = .ok l) (h : Laid 1 ws l.lines.toList)
include hl h

theorem exists_assemble_of_emits (he : ∀ w ∈ ws, w.Emits l.symbols) :
    ∃ a, assemble o source = .ok a ∧ a.program.bytes = ws.flatMap (·.bytes) ∧
      a.program.entry = ws.foldl (fun e w => w.entry.getD e) o.origin := by
  obtain ⟨out, hout, hbytes, hentry⟩ :=
    h.foldlM_push he { entry := o.origin, secondMonitor := o.dualMonitor }
  rw [Array.foldlM_toList] at hout
  refine ⟨{ program := out.program o l, listing := out.listing.toList }, ?_, ?_, hentry⟩
  · rw [assemble, hl, ok_bind, Layout.assemble, Layout.emit, hout]
    rfl
  · show out.listing.toList.flatMap (·.bytes) = _
    simpa using hbytes

theorem assemble_of_error {before after : List Written} {w : Written} {s : Statement}
    {cause : Cause} (hws : ws = before ++ w :: after) (he : ∀ x ∈ before, x.Emits l.symbols)
    (hs : w.statement = some s) (hc : emitStatement l.symbols w.address s = .error cause) :
    assemble o source = .error ⟨1 + before.length, cause⟩ := by
  rw [hws] at h
  have hout := h.foldlM_push_error he hs hc { entry := o.origin, secondMonitor := o.dualMonitor }
  rw [Array.foldlM_toList] at hout
  rw [assemble, hl, ok_bind, Layout.assemble, Layout.emit, hout]
  rfl

end

end B33.Assembly
