import B33.Assembly
import B33.Proofs.Source.Capitals
import B33.Proofs.Assembly.Layout

/-!
# Assembling without case

Both walks through a source commute with folding its names: what they make of folded lines is what
they make of the lines, folded. Folding changes no byte and no address, so sources that are the same
but for case give the same program, or fail on the same line for causes that are the same but for
case.
-/
namespace B33

namespace NameTable
variable {α : Type}

/-- The table with its names in capitals. Looking a name up gives what it gave before. -/
def folded (t : NameTable α) : NameTable α where
  entries := t.entries.map fun e => (foldCase e.1, e.2)
  index := t.index
  index_eq key := by
    rw [t.index_eq key, Array.toList_map, List.find?_map, Option.map_map]
    simp only [Function.comp_def, foldCase_foldCase]

theorem map_snd_folded (t : NameTable α) : t.folded.toList.map (·.2) = t.toList.map (·.2) := by
  simp [folded, toList]

theorem folded_push {t : NameTable α} {name : String} (value : α) (fresh : t.get? name = none)
    (fresh' : t.folded.get? (foldCase name) = none) :
    (t.push name value fresh).folded = t.folded.push (foldCase name) value fresh' := by
  simp [folded, push]

end NameTable

namespace Assembly
open Source

namespace Symbols

def folded (s : Symbols) : Symbols := ⟨s.labels.folded, s.constants.folded⟩

theorem value?_folded (s : Symbols) (name : String) :
    s.folded.value? (foldCase name) = s.value? name :=
  s.value?_congr (foldCase_foldCase name)

theorem defineLabel_folded (s : Symbols) (name : String) (address : UInt16) :
    s.folded.defineLabel (foldCase name) address =
      mapBoth Cause.folded folded (s.defineLabel name address) := by
  have hvalue := s.value?_folded name
  cases h : s.value? name with
  | some value =>
      rw [defineLabel_of_defined h, defineLabel_of_defined (hvalue.trans h)]
      rfl
  | none =>
      have hpush := NameTable.folded_push address (value?_eq_none_iff.mp h).1
        (value?_eq_none_iff.mp (hvalue.trans h)).1
      rw [defineLabel_of_fresh h, defineLabel_of_fresh (hvalue.trans h)]
      exact congrArg (fun labels => Except.ok (Symbols.mk labels _)) hpush.symm

theorem defineConstant_folded (s : Symbols) (name : String) (value : Int) :
    s.folded.defineConstant (foldCase name) value =
      mapBoth Cause.folded folded (s.defineConstant name value) := by
  have hvalue := s.value?_folded name
  cases h : s.value? name with
  | some previous =>
      rw [defineConstant_of_defined h, defineConstant_of_defined (hvalue.trans h)]
      rfl
  | none =>
      have hpush := NameTable.folded_push value (value?_eq_none_iff.mp h).2
        (value?_eq_none_iff.mp (hvalue.trans h)).2
      rw [defineConstant_of_fresh h, defineConstant_of_fresh (hvalue.trans h)]
      exact congrArg (fun constants => Except.ok (Symbols.mk _ constants)) hpush.symm

end Symbols

theorem value_folded (s : Symbols) (e : Expression) :
    e.folded.value s.folded.value? = mapBoth Cause.folded id (e.value s.value?) := by
  cases e with
  | number n => rfl
  | symbol name offset =>
      rw [Expression.folded, Expression.value, Expression.value, s.value?_folded]
      cases s.value? name with
      | some v => rfl
      | none => rfl

theorem checkRange_folded (value least greatest : Int) :
    checkRange value least greatest =
      mapBoth Cause.folded id (checkRange value least greatest) := by
  unfold checkRange
  split_ifs
  · rfl
  · rfl

theorem instructionOf_folded (m : Mnemonic) (operand : Operand) :
    instructionOf m operand.folded = mapBoth Cause.folded id (instructionOf m operand) := by
  have hmode : operand.folded.mode m = operand.mode m := by cases operand <;> rfl
  unfold instructionOf
  rw [hmode]
  cases Instruction.lookup m (operand.mode m) with
  | some i => rfl
  | none => rfl

theorem sizeOf_folded (s : Symbols) (statement : Statement) :
    sizeOf s.folded statement.folded = mapBoth Cause.folded id (sizeOf s statement) := by
  cases statement with
  | instruction m operand =>
      rw [Statement.folded, sizeOf, sizeOf, instructionOf_folded]
      exact map_mapBoth (g := id) (k := Instruction.length) (l := Instruction.length)
        (fun _ => rfl) (instructionOf m operand)
  | reserve count =>
      exact mapBoth_bind (value_folded s count) fun n =>
        mapBoth_bind (checkRange_folded _ _ _) fun _ => rfl
  | string text => rfl
  | bytes values => exact congrArg Except.ok (List.length_map _)
  | finish entry => rfl
  | define value => rfl

def PlacedLine.folded (p : PlacedLine) : PlacedLine := { p with line := p.line.folded }

namespace Layout

def folded (l : Layout) : Layout where
  lines := l.lines.map PlacedLine.folded
  symbols := l.symbols.folded
  finish := l.finish

theorem folded_push_line (lines : Array PlacedLine) (line : Line) (address : UInt16)
    (symbols : Symbols) (finish : Nat) :
    folded ⟨lines.push { line, address }, symbols, finish⟩ =
      ⟨(lines.map PlacedLine.folded).push { line := line.folded, address }, symbols.folded,
        finish⟩ := by
  simp only [folded, Array.map_push, PlacedLine.folded]

theorem placeDefinition_folded (l : Layout) (line : Line) (value : Expression) :
    l.folded.placeDefinition line.folded value.folded =
      mapBoth Cause.folded folded (l.placeDefinition line value) := by
  have hnone : foldCase "" = "" := foldCase_ofList []
  have hlabel : line.folded.label.getD "" = foldCase (line.label.getD "") := by
    rw [line.label_folded]
    cases line.label with
    | none => exact hnone.symm
    | some name => rfl
  refine mapBoth_bind (value_folded l.symbols value) fun n => ?_
  refine mapBoth_bind (checkRange_folded _ _ _) fun _ => ?_
  rw [hlabel]
  refine mapBoth_bind (l.symbols.defineConstant_folded _ _) fun symbols => ?_
  exact congrArg Except.ok (folded_push_line l.lines line _ symbols l.finish).symm

theorem placeSized_folded (origin : UInt16) (l : Layout) (line : Line) (size : Nat) :
    l.folded.placeSized origin line.folded size =
      mapBoth Cause.folded folded (l.placeSized origin line size) := by
  obtain ⟨lines, symbols, finish⟩ := l
  have hpush (symbols : Symbols) :=
    (folded_push_line lines line (UInt16.ofNat finish) symbols (finish + size)).symm
  dsimp only [placeSized, folded]
  rw [line.label_folded, Option.isSome_map]
  refine guard_mapBoth Iff.rfl rfl (guard_mapBoth Iff.rfl rfl ?_)
  cases line.label with
  | none => exact congrArg Except.ok (hpush symbols)
  | some name =>
      exact mapBoth_bind (symbols.defineLabel_folded name _) fun symbols =>
        congrArg Except.ok (hpush symbols)

theorem place_folded (origin : UInt16) (l : Layout) (line : Line) :
    l.folded.place origin line.folded = mapBoth Cause.folded folded (l.place origin line) := by
  unfold place
  rw [line.statement_folded]
  cases line.statement with
  | none => exact placeSized_folded origin l line 0
  | some statement =>
      cases statement with
      | define value => exact l.placeDefinition_folded line value
      | _ =>
        exact mapBoth_bind (sizeOf_folded l.symbols _) fun size =>
          placeSized_folded origin l line size

theorem isLast_folded (line : Line) : isLast line.folded = isLast line := by
  unfold isLast
  rw [line.statement_folded]
  cases line.statement with
  | none => rfl
  | some statement => cases statement <;> rfl

/-- Layouts that are the same but for case stay so when lines that are the same but for case are
placed. -/
theorem placeAll_congr {origin : UInt16} {number : Nat} {l l' : Layout} {ss ts : List String}
    (hl : l.folded = l'.folded) (h : List.Forall₂ SameButCase ss ts)
    (hs : ∀ s ∈ ss, '\n' ∉ s.toList) (ht : ∀ t ∈ ts, '\n' ∉ t.toList) :
    mapBoth SourceError.folded folded (placeAll origin number l ss) =
      mapBoth SourceError.folded folded (placeAll origin number l' ts) := by
  -- The two layouts need not be equal, so what is carried along is that they fold to the same.
  induction h generalizing number l l' with
  | nil => exact congrArg Except.ok hl
  | @cons s t ss ts hst _ ih =>
      rw [List.forall_mem_cons] at hs ht
      have hplace (line line' : Line) (hfolded : line.folded = line'.folded) :
          mapBoth Cause.folded folded (l.place origin line) =
            mapBoth Cause.folded folded (l'.place origin line') := by
        rw [← place_folded, ← place_folded, hl, hfolded]
      refine placeAll_cons_congr (hst.parse hs.1 ht.1 number) hplace ?_ ?_ ?_
      · intro line line' hfolded
        rw [← isLast_folded, hfolded, isLast_folded]
      · intro c c' hcause
        simp only [SourceError.folded, hcause]
      · intro line next next' _ _ hmore
        exact ih hmore hs.2 ht.2

theorem ofSource_congr (origin : UInt16) {s t : String} (h : SameButCase s t) :
    mapBoth SourceError.folded folded (ofSource origin s) =
      mapBoth SourceError.folded folded (ofSource origin t) :=
  placeAll_congr rfl h.splitLines (fun _ => not_mem_of_mem_splitLines)
    fun _ => not_mem_of_mem_splitLines

end Layout

section
variable (symbols : Symbols) (address : UInt16)

theorem byteOf_folded (value : Int) : byteOf value = mapBoth Cause.folded id (byteOf value) :=
  mapBoth_bind (checkRange_folded _ _ _) fun _ => rfl

theorem signedWordOf_folded (value : Int) :
    signedWordOf value = mapBoth Cause.folded id (signedWordOf value) :=
  mapBoth_bind (checkRange_folded _ _ _) fun _ => rfl

theorem addressOf_folded (value : Int) :
    addressOf value = mapBoth Cause.folded id (addressOf value) :=
  mapBoth_bind (checkRange_folded _ _ _) fun _ => rfl

theorem displacementOf_folded (next : Nat) (target : Int) :
    displacementOf next target = mapBoth Cause.folded id (displacementOf next target) :=
  mapBoth_bind (checkRange_folded _ _ _) fun _ => rfl

theorem emitInstruction_folded (i : Instruction) (operand : Operand) :
    emitInstruction symbols.folded address i operand.folded =
      mapBoth Cause.folded id (emitInstruction symbols address i operand) := by
  cases operand with
  | inherent => rfl
  | indexed form => rfl
  | immediate e =>
      refine mapBoth_bind (value_folded symbols e) fun value => ?_
      dsimp only [id_eq]
      split_ifs
      · exact mapBoth_bind (byteOf_folded value) fun _ => rfl
      · exact mapBoth_bind (signedWordOf_folded value) fun _ => rfl
  | address e =>
      refine mapBoth_bind (value_folded symbols e) fun value => ?_
      dsimp only [id_eq]
      split_ifs
      · exact mapBoth_bind (displacementOf_folded _ value) fun _ => rfl
      · exact mapBoth_bind (addressOf_folded value) fun _ => rfl

theorem emitStatement_folded (statement : Statement) :
    emitStatement symbols.folded address statement.folded =
      mapBoth Cause.folded id (emitStatement symbols address statement) := by
  cases statement with
  | define value => rfl
  | string s => rfl
  | instruction m operand =>
      exact mapBoth_bind (instructionOf_folded m operand) fun i =>
        emitInstruction_folded symbols address i operand
  | reserve count => exact mapBoth_bind (value_folded symbols count) fun _ => rfl
  | bytes values =>
      have hvalue (e : Expression) : (e.folded.value symbols.folded.value? >>= byteOf) =
          mapBoth Cause.folded id (e.value symbols.value? >>= byteOf) :=
        mapBoth_bind (value_folded symbols e) byteOf_folded
      refine mapBoth_bind (mapM_mapBoth hvalue values) fun bytes => ?_
      rw [List.map_id]
      rfl
  | finish entry =>
      cases entry with
      | none => rfl
      | some e =>
          exact mapBoth_bind (value_folded symbols e) fun value =>
            mapBoth_bind (addressOf_folded value) fun _ => rfl

end

theorem emitLine_folded (symbols : Symbols) (p : PlacedLine) :
    emitLine symbols.folded p.folded =
      mapBoth SourceError.folded id (emitLine symbols p) := by
  have hline : p.folded.line = p.line.folded := rfl
  have haddress : p.folded.address = p.address := rfl
  unfold emitLine
  rw [hline, haddress, p.line.statement_folded]
  cases p.line.statement with
  | none => rfl
  | some statement =>
      dsimp only [Option.map_some]
      rw [emitStatement_folded]
      cases emitStatement symbols p.address statement with
      | ok emitted => rfl
      | error cause => rfl

def ListingLine.folded (l : ListingLine) : ListingLine := { l with line := l.line.folded }

def Output.folded (out : Output) : Output :=
  { out with listing := out.listing.map ListingLine.folded }

theorem push_folded (symbols : Symbols) (out : Output) (p : PlacedLine) :
    out.folded.push symbols.folded p.folded =
      mapBoth SourceError.folded Output.folded (out.push symbols p) := by
  refine mapBoth_bind (emitLine_folded symbols p) fun emitted => congrArg Except.ok ?_
  simp only [Output.folded, Array.map_push]
  rfl

theorem emit_folded (l : Layout) (start : Output) :
    l.folded.emit start.folded = mapBoth SourceError.folded Output.folded (l.emit start) := by
  unfold Layout.emit
  rw [← Array.foldlM_toList, ← Array.foldlM_toList, Layout.folded, Array.toList_map]
  exact foldlM_mapBoth (push_folded l.symbols) start l.lines.toList

theorem emit_congr {l l' : Layout} (h : l.folded = l'.folded) (start : Output) :
    mapBoth SourceError.folded Output.folded (l.emit start) =
      mapBoth SourceError.folded Output.folded (l'.emit start) := by
  rw [← emit_folded, ← emit_folded, h]

end Assembly

open Assembly Source

/-- What two programs with their listings have in common if their sources are the same but for
case. -/
structure Assembled.SameCode (a b : Assembled) : Prop where
  bytes : a.program.bytes = b.program.bytes
  entry : a.program.entry = b.program.entry
  dualMonitor : a.program.dualMonitor = b.program.dualMonitor
  addresses : a.listing.map (·.address) = b.listing.map (·.address)
  labels : a.program.labels.toList.map (·.2) = b.program.labels.toList.map (·.2)

/-- Two sources both assemble and give the same code, or both fail on the same line and for causes
that differ at most in the case of the words in them. -/
inductive SameOutcome : Except SourceError Assembled → Except SourceError Assembled → Prop
  | code {a b : Assembled} : a.SameCode b → SameOutcome (.ok a) (.ok b)
  | failure {e e' : SourceError} :
      e.line = e'.line → e.cause.folded = e'.cause.folded → SameOutcome (.error e) (.error e')

/-- Assembly does not look at case: sources that differ at most in the case of letters outside
string literals have the same outcome. -/
theorem assemble_ignores_case (o : AssemblyOptions) {s t : String} (h : SameButCase s t) :
    SameOutcome (assemble o s) (assemble o t) := by
  unfold assemble Layout.assemble
  rcases mapBoth_eq_cases (Layout.ofSource_congr o.origin h) with
    ⟨l, l', hs, ht, hlayout⟩ | ⟨e, e', hs, ht, herror⟩
  · rw [hs, ht, ok_bind, ok_bind]
    rcases mapBoth_eq_cases
        (emit_congr hlayout { entry := o.origin, secondMonitor := o.dualMonitor }) with
      ⟨out, out', hout, hout', houtput⟩ | ⟨e, e', hout, hout', herror⟩
    · rw [hout, hout']
      obtain ⟨hlisting, hentry, hmonitor⟩ := Output.mk.inj houtput
      have hlines := congrArg Array.toList hlisting
      rw [Array.toList_map, Array.toList_map] at hlines
      have hbytes := congrArg (List.flatMap ListingLine.bytes) hlines
      rw [List.flatMap_map, List.flatMap_map] at hbytes
      have haddresses := congrArg (List.map ListingLine.address) hlines
      rw [List.map_map, List.map_map] at haddresses
      have hlabels := congrArg (fun l => l.symbols.labels.toList.map (·.2)) hlayout
      dsimp only [Layout.folded, Symbols.folded] at hlabels
      rw [NameTable.map_snd_folded, NameTable.map_snd_folded] at hlabels
      exact .code ⟨hbytes, hentry, hmonitor, haddresses, hlabels⟩
    · rw [hout, hout']
      obtain ⟨hline, hcause⟩ := SourceError.mk.inj herror
      exact .failure hline hcause
  · rw [hs, ht]
    obtain ⟨hline, hcause⟩ := SourceError.mk.inj herror
    exact .failure hline hcause

/-- A label, a number with a sign for its radix, a comment and a literal. -/
theorem same_outcome_in_capitals :
    SameButCase "loop: lda #&hff ; go\n str \"Hi\"\n" "LOOP: LDA #&HFF ; GO\n STR \"Hi\"\n" ∧
      SameOutcome (assemble {} "loop: lda #&hff ; go\n str \"Hi\"\n")
        (assemble {} "LOOP: LDA #&HFF ; GO\n STR \"Hi\"\n") :=
  ⟨by decide, assemble_ignores_case {} (by decide)⟩

end B33
