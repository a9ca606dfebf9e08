import B33.Assembly
import B33.Proofs.Assembly.Layout
import B33.Proofs.Source.Grammar
import B33.Proofs.Source.Renumbered

/-!
# Lines that generate nothing

A blank line, or a line with nothing but a comment, moves the lines behind it and does nothing else.
Both walks through a source are compared by what is left of their lines when those without a
statement are dropped and the others are renumbered. Behind a line that ends the source nothing is
looked at.
-/
namespace B33

namespace Source

/-- Whether a line is blank up to a comment that takes its rest. -/
def IsInert (text : String) : Prop :=
  (text.toList.dropWhile isLineBlank).head?.all (· == ';') = true

instance (text : String) : Decidable (IsInert text) := inferInstanceAs (Decidable (_ = true))

theorem parses_trivia_label {ks : List TokenKind} (h : Trivia ks) :
    Parses Line.parseLabel ks none (ks.dropWhile (· == .blanks)) := by
  unfold Line.parseLabel
  refine .get fun _ _ => .bind (.skipBlanks _) (.get fun ts hts => ?_)
  have hrest : Trivia (ts.map (·.kind)) := by
    rw [hts]
    exact h.dropWhile _
  cases ts with
  | nil => exact .pure _ _
  | cons t ts =>
      dsimp only
      split
      · next name hname =>
        have ht := hrest t.kind List.mem_cons_self
        rw [hname] at ht
        cases ht
      · exact .pure _ _

theorem IsInert.lexes {text : String} (h : IsInert text) :
    ∃ kinds, Lexes text.toList kinds ∧ Trivia kinds := by
  have hrest : ∃ kinds, Lexes (text.toList.dropWhile isLineBlank) kinds ∧ Trivia kinds ∧
      ∀ k ∈ kinds.head?, k ≠ .blanks := by
    unfold IsInert at h
    cases hcs : text.toList.dropWhile isLineBlank with
    | nil => exact ⟨[], .nil, by simp [Trivia], by simp⟩
    | cons c cs =>
        obtain rfl : c = ';' := by simpa [hcs] using h
        exact ⟨_, lexes_comment cs, by simp [Trivia, TokenKind.isTrivia], by simp⟩
  obtain ⟨kinds, hlex, htrivia, hhead⟩ := hrest
  rw [← List.takeWhile_append_dropWhile (p := isLineBlank) (l := text.toList)]
  have hblanks : ∀ x ∈ text.toList.takeWhile isLineBlank, isLineBlank x = true :=
    List.all_eq_true.mp List.all_takeWhile
  cases hbs : text.toList.takeWhile isLineBlank with
  | nil => exact ⟨kinds, hlex, htrivia⟩
  | cons b bs =>
      rw [hbs, List.forall_mem_cons] at hblanks
      exact ⟨_, lexes_blank_run hblanks.1 hblanks.2 (hlex.endsBlanks hhead) hlex,
        List.forall_mem_cons.mpr ⟨rfl, htrivia⟩⟩

theorem IsInert.readsAs {text : String} (h : IsInert text) : ReadsAs text none none := by
  obtain ⟨kinds, hlex, htrivia⟩ := h.lexes
  have hrest := (htrivia.dropWhile (· == .blanks)).dropWhile (· == .blanks)
  exact readsAs_of_parseLabel hlex (fun ts hts _ => parses_trivia_label htrivia ts hts)
    (parses_nothing hrest) hrest

/-- Whether a line ends the source. -/
def EndsSource (text : String) : Prop :=
  ∃ number line, Line.parse number text = .ok line ∧ Assembly.Layout.isLast line = true

/-- A line ends the source wherever it stands. -/
theorem EndsSource.parse {text : String} (h : EndsSource text) (n : Nat) :
    ∃ line, Line.parse n text = .ok line ∧ Assembly.Layout.isLast line = true := by
  obtain ⟨number, line, hline, hlast⟩ := h
  have hparse := Line.parse_renumber (fun _ => n) number text
  rw [hline] at hparse
  exact ⟨_, hparse, hlast⟩

end Source

namespace Assembly
open Source

/-- A line with another number, if it has a statement. -/
def PlacedLine.coded? (g : Nat → Nat) (p : PlacedLine) : Option PlacedLine :=
  if p.line.statement.isSome then some { p with line := p.line.renumber g } else none

/-- What becomes of the number of a line when a line is put in as number `k`. -/
def shiftLine (k n : Nat) : Nat := if k ≤ n then n + 1 else n

namespace Layout

/-- The layout without the lines that have no statement, and with other numbers for the rest. -/
def coded (g : Nat → Nat) (l : Layout) : Layout :=
  { l with lines := (l.lines.toList.filterMap (PlacedLine.coded? g)).toArray }

theorem coded_push (g : Nat → Nat) (lines : Array PlacedLine) (p : PlacedLine) (symbols : Symbols)
    (finish : Nat) :
    coded g ⟨lines.push p, symbols, finish⟩ =
      ⟨(coded g ⟨lines, symbols, finish⟩).lines ++ (p.coded? g).toList.toArray, symbols,
        finish⟩ := by
  cases hp : p.coded? g <;> simp [coded, hp]

/-- Placing a line looks neither at the lines that were placed before nor at its number. -/
theorem place_eq_of_alike {origin : UInt16} {l l' : Layout} {line line' : Line}
    (hsymbols : l'.symbols = l.symbols) (hfinish : l'.finish = l.finish)
    (hlabel : line'.label = line.label) (hstatement : line'.statement = line.statement) :
    l'.place origin line' = mapBoth id (fun next : Layout =>
      ⟨l'.lines.push { line := line', address := UInt16.ofNat l.finish }, next.symbols,
        next.finish⟩) (l.place origin line) := by
  obtain ⟨lines, symbols, finish⟩ := l
  obtain ⟨lines', symbols', finish'⟩ := l'
  dsimp only at hsymbols hfinish
  subst hsymbols hfinish
  have hsized (size : Nat) : placeSized origin ⟨lines', symbols', finish'⟩ line' size =
      mapBoth id (fun next : Layout => ⟨lines'.push { line := line', address := .ofNat finish' },
        next.symbols, next.finish⟩) (placeSized origin ⟨lines, symbols', finish'⟩ line size) := by
    dsimp only [placeSized]
    rw [hlabel]
    refine guard_mapBoth Iff.rfl rfl (guard_mapBoth Iff.rfl rfl ?_)
    cases line.label with
    | none => rfl
    | some name => exact mapBoth_bind (mapBoth_id _).symm fun symbols => rfl
  unfold place
  rw [hstatement]
  cases line.statement with
  | none => exact hsized 0
  | some statement =>
      cases statement with
      | define value =>
          refine mapBoth_bind (mapBoth_id _).symm fun n => ?_
          refine mapBoth_bind (mapBoth_id _).symm fun _ => ?_
          rw [hlabel]
          exact mapBoth_bind (mapBoth_id _).symm fun symbols => rfl
      | _ => exact mapBoth_bind (mapBoth_id _).symm hsized

variable {origin : UInt16} {g g' : Nat → Nat} {l l' : Layout}

theorem place_coded {line line' : Line} (hl : l.coded g = l'.coded g')
    (hline : line.renumber g = line'.renumber g') :
    mapBoth id (coded g) (l.place origin line) = mapBoth id (coded g') (l'.place origin line') := by
  have hsymbols : l'.symbols = l.symbols := (congrArg Layout.symbols hl).symm
  have hfinish : l'.finish = l.finish := (congrArg Layout.finish hl).symm
  have hlabel : line'.label = line.label := (congrArg Line.label hline).symm
  have hstatement : line'.statement = line.statement := (congrArg Line.statement hline).symm
  have hown := @place_eq_of_alike origin l l line line rfl rfl rfl rfl
  have hother := @place_eq_of_alike origin l l' line line' hsymbols hfinish hlabel hstatement
  rw [hother, hown]
  have hcoded : PlacedLine.coded? g ⟨line, UInt16.ofNat l.finish⟩ =
      PlacedLine.coded? g' ⟨line', UInt16.ofNat l.finish⟩ := by
    simp only [PlacedLine.coded?, hstatement, hline]
  have hlines := congrArg Layout.lines hl
  cases l.place origin line with
  | error c => rfl
  | ok next =>
      refine congrArg Except.ok ?_
      dsimp only
      rw [coded_push, coded_push, hcoded]
      exact congrArg (fun lines => Layout.mk (lines ++ _) _ _) hlines

/-- A line on both sides, with lines behind it that come to the same. -/
theorem placeAll_cons_coded {n n' : Nat} {text : String} {texts texts' : List String}
    (hn : g n = g' n') (hl : l.coded g = l'.coded g') (hv : l'.Valid origin)
    (hrest : ∀ next next' : Layout, next.coded g = next'.coded g' → next'.Valid origin →
      mapBoth (SourceError.renumber g) (coded g) (placeAll origin (n + 1) next texts) =
        mapBoth (SourceError.renumber g') (coded g') (placeAll origin (n' + 1) next' texts')) :
    mapBoth (SourceError.renumber g) (coded g) (placeAll origin n l (text :: texts)) =
      mapBoth (SourceError.renumber g') (coded g') (placeAll origin n' l' (text :: texts')) := by
  have hparse : mapBoth (SourceError.renumber g) (Line.renumber g) (Line.parse n text) =
      mapBoth (SourceError.renumber g') (Line.renumber g') (Line.parse n' text) := by
    rw [← Line.parse_renumber, ← Line.parse_renumber, hn]
  refine placeAll_cons_congr hparse (fun line line' hsame => place_coded hl hsame) ?_ ?_ ?_
  · intro line line' hsame
    show isLast (line.renumber g) = isLast (line'.renumber g')
    rw [hsame]
  · rintro a b rfl
    simp only [SourceError.renumber, hn, id_eq]
  · intro line next next' hline hnext hmore
    obtain ⟨size, hstep⟩ := place_step (Line.isSome_label_of_parse hline) hnext
    exact hrest next next' hmore (hstep.valid hv)

/-- The same lines under other numbers. -/
theorem placeAll_coded {n n' : Nat} {texts : List String} (hn : ∀ j, g (n + j) = g' (n' + j))
    (hl : l.coded g = l'.coded g') (hv : l'.Valid origin) :
    mapBoth (SourceError.renumber g) (coded g) (placeAll origin n l texts) =
      mapBoth (SourceError.renumber g') (coded g') (placeAll origin n' l' texts) := by
  induction texts generalizing n n' l l' with
  | nil => exact congrArg Except.ok hl
  | cons text texts ih =>
      refine placeAll_cons_coded (hn 0) hl hv fun next next' hnext hv => ih (fun j => ?_) hnext hv
      rw [Nat.add_assoc, Nat.add_assoc]
      exact hn (1 + j)

theorem place_inert {line : Line} (hlabel : line.label = none) (hstatement : line.statement = none)
    (hv : l.Valid origin) :
    l.place origin line = .ok { l with
      lines := l.lines.push { line, address := UInt16.ofNat l.finish } } := by
  have hfinish := hv.finish_le
  have hlength := hv.length_le
  obtain ⟨lines, symbols, finish⟩ := l
  have haddress : ¬(0x10000 < finish + 0 ∨ (false = true ∧ 0xFFFF < finish)) := by
    simpa using hfinish
  have hsize : ¬0xFFFF < finish + 0 - origin.toNat := by
    dsimp only at hlength
    omega
  rw [place, hstatement]
  dsimp only [placeSized]
  rw [hlabel]
  dsimp only [Option.isSome_none]
  rw [if_neg haddress, if_neg hsize]
  rfl

/-- A line that generates nothing, put between the others. -/
theorem placeAll_insert {before after : List String} {text : String} (htext : IsInert text)
    {k n : Nat} (hk : n + before.length = k) (hl : l.coded (shiftLine k) = l'.coded id)
    (hv : l'.Valid origin) :
    mapBoth (SourceError.renumber (shiftLine k)) (coded (shiftLine k))
        (placeAll origin n l (before ++ after)) =
      mapBoth (SourceError.renumber id) (coded id)
        (placeAll origin n l' (before ++ text :: after)) := by
  induction before generalizing n l l' with
  | nil =>
      obtain ⟨line, hline, -, hlabel, hstatement, -⟩ := htext.readsAs n
      have hplaced := place_inert hlabel hstatement hv
      have hlast : isLast line = false := by rw [isLast, hstatement]
      obtain ⟨size, hstep⟩ := place_step (Line.isSome_label_of_parse hline) hplaced
      have hnext : placeAll origin n l' ([] ++ text :: after) = placeAll origin (n + 1)
          { l' with lines := l'.lines.push { line, address := UInt16.ofNat l'.finish } } after := by
        rw [List.nil_append, placeAll, hline, ok_bind, hplaced]
        simp [hlast]
      rw [hnext]
      refine placeAll_coded (fun j => ?_) ?_ (hstep.valid hv)
      · obtain rfl : n = k := hk
        rw [shiftLine, if_pos (Nat.le_add_right n j)]
        exact Nat.add_right_comm n j 1
      · have hdropped : PlacedLine.coded? id ⟨line, UInt16.ofNat l'.finish⟩ = none := by
          simp [PlacedLine.coded?, hstatement]
        rw [hl, coded_push, hdropped]
        exact congrArg (fun lines => Layout.mk lines _ _) Array.append_empty.symm
  | cons first before ih =>
      rw [List.length_cons] at hk
      have hn : shiftLine k n = n := if_neg (by omega)
      exact placeAll_cons_coded hn hl hv fun next next' hnext hv => ih (by omega) hnext hv

/-- A line that ends the source, with anything behind it. -/
theorem placeAll_last {before after after' : List String} {last : String} (hlast : EndsSource last)
    (n : Nat) : placeAll origin n l (before ++ last :: after) =
      placeAll origin n l (before ++ last :: after') := by
  induction before generalizing n l with
  | nil =>
      obtain ⟨line, hline, hend⟩ := hlast.parse n
      rw [List.nil_append, List.nil_append, placeAll, placeAll, hline, ok_bind, ok_bind]
      cases l.place origin line with
      | error c => rfl
      | ok next => simp only [hend, if_true]
  | cons first before ih =>
      rw [List.cons_append, List.cons_append, placeAll, placeAll]
      congr 1
      funext line
      cases l.place origin line with
      | error c => rfl
      | ok next => simp only [ih]

end Layout

/-- A line of a listing with another number, if it has bytes. -/
def ListingLine.coded? (g : Nat → Nat) (l : ListingLine) : Option ListingLine :=
  if l.bytes.isEmpty then none else some { l with line := l.line.renumber g }

/-- The output without the lines that have no bytes, and with other numbers for the rest. -/
def Output.coded (g : Nat → Nat) (out : Output) : Output :=
  { out with listing := (out.listing.toList.filterMap (ListingLine.coded? g)).toArray }

section
variable {g g' : Nat → Nat} {p q : PlacedLine} (symbols : Symbols) (out : Output)

theorem emitLine_coded (h : p.coded? g = some q) :
    emitLine symbols q = mapBoth (SourceError.renumber g) id (emitLine symbols p) := by
  unfold PlacedLine.coded? at h
  split_ifs at h
  cases h
  unfold emitLine
  dsimp only [Line.renumber]
  cases p.line.statement with
  | none => rfl
  | some statement =>
      dsimp only
      cases emitStatement symbols p.address statement with
      | ok emitted => rfl
      | error c => rfl

theorem push_coded (h : p.coded? g = some q) :
    ((out.coded g).push symbols q).map (Output.coded id) =
      mapBoth (SourceError.renumber g) (Output.coded g) (out.push symbols p) := by
  have htwice (l : ListingLine) : (l.coded? g).bind (ListingLine.coded? id) = l.coded? g := by
    by_cases hl : l.bytes.isEmpty = true
    · simp [ListingLine.coded?, hl]
    · simp [ListingLine.coded?, hl, Line.renumber]
  have hline (bytes : List UInt8) : ListingLine.coded? id { q with bytes } =
      ListingLine.coded? g { p with bytes } := by
    unfold PlacedLine.coded? at h
    split_ifs at h
    cases h
    rfl
  unfold Output.push
  rw [emitLine_coded symbols h]
  cases emitLine symbols p with
  | error e => rfl
  | ok emitted =>
      refine congrArg Except.ok ?_
      simp only [Output.coded, Array.toList_push, List.filterMap_append, List.filterMap_filterMap,
        htwice, List.filterMap_cons, List.filterMap_nil, hline, id_eq]

theorem push_uncoded (h : p.coded? g = none) :
    mapBoth (SourceError.renumber g) (Output.coded g) (out.push symbols p) = .ok (out.coded g) := by
  have hstatement : p.line.statement = none := by
    unfold PlacedLine.coded? at h
    split_ifs at h with hsome
    simpa using hsome
  rw [Output.push, emitLine, hstatement]
  refine congrArg Except.ok ?_
  simp [Output.coded, ListingLine.coded?]

theorem emit_coded (l : Layout) :
    (l.coded g).lines.toList.foldlM (fun out p => (out.push l.symbols p).map (Output.coded id))
        (out.coded g) =
      mapBoth (SourceError.renumber g) (Output.coded g) (l.emit out) := by
  rw [Layout.emit, ← Array.foldlM_toList]
  exact foldlM_filterMap (fun s p q hq => push_coded l.symbols s hq)
    (fun s p hp => push_uncoded l.symbols s hp) out l.lines.toList

theorem emit_congr_coded {l l' : Layout} (h : l.coded g = l'.coded g')
    (hout : out.coded g = out.coded g') :
    mapBoth (SourceError.renumber g) (Output.coded g) (l.emit out) =
      mapBoth (SourceError.renumber g') (Output.coded g') (l'.emit out) := by
  have hsymbols : l.symbols = l'.symbols := by
    show (l.coded g).symbols = (l'.coded g').symbols
    rw [h]
  rw [← emit_coded, ← emit_coded, h, hout, hsymbols]

end

end Assembly

open Assembly Source

/-- The entry with another number, as far as a word can hold it. -/
def DebugEntry.renumber (g : Nat → Nat) (e : DebugEntry) : DebugEntry :=
  { e with line := UInt16.ofNat (min (g e.line.toNat) 0xFFFF) }

/-- The program with other numbers in its debug entries. -/
def Program.renumber (g : Nat → Nat) (p : Program) : Program :=
  { p with debugEntries := p.debugEntries.map (DebugEntry.renumber g) }

theorem Program.renumber_id (p : Program) : p.renumber id = p := by
  have hentry : DebugEntry.renumber id = id := by
    funext e
    have hline : min e.line.toNat 0xFFFF = e.line.toNat :=
      min_eq_left (Nat.le_of_lt_succ e.line.toNat_lt)
    simp [DebugEntry.renumber, hline]
  rw [renumber, hentry, List.map_id]

section
variable {g : Nat → Nat}

/-- A number that a word cannot hold stays one. -/
theorem debugEntry?_coded (hg : ∀ n, n ≤ g n) (l : ListingLine) :
    (l.coded? g).bind ListingLine.debugEntry? = l.debugEntry?.map (DebugEntry.renumber g) := by
  have hline (n : Nat) : min (g (min n 0xFFFF)) 0xFFFF = min (g n) 0xFFFF := by
    rcases Nat.le_total n 0xFFFF with hn | hn
    · rw [min_eq_left hn]
    · have hword := hg 0xFFFF
      have hlarge := hg n
      rw [min_eq_right hn]
      omega
  by_cases hl : l.bytes.isEmpty = true
  · simp [ListingLine.coded?, ListingLine.debugEntry?, hl]
  · have hword : (UInt16.ofNat (min l.line.number 0xFFFF)).toNat = min l.line.number 0xFFFF :=
      toNat_ofNat_of_le (min_le_right _ _)
    simp only [ListingLine.coded?, ListingLine.debugEntry?, hl, Bool.false_eq_true, if_false,
      Option.bind_some, Option.map_some, DebugEntry.renumber, Line.renumber, hword, hline]

theorem flatMap_bytes_coded (ls : List ListingLine) :
    (ls.filterMap (ListingLine.coded? g)).flatMap (·.bytes) = ls.flatMap (·.bytes) := by
  induction ls with
  | nil => rfl
  | cons l ls ih =>
      by_cases hl : l.bytes = []
      · have hnone : l.coded? g = none := by simp [ListingLine.coded?, hl]
        rw [List.filterMap_cons_none hnone, List.flatMap_cons, hl, List.nil_append, ih]
      · have hsome : l.coded? g = some { l with line := l.line.renumber g } := by
          simp [ListingLine.coded?, hl]
        rw [List.filterMap_cons_some hsome, List.flatMap_cons, List.flatMap_cons, ih]

theorem program_coded (hg : ∀ n, n ≤ g n) (o : AssemblyOptions) (l : Layout) (out : Output) :
    (out.coded g).program o (l.coded g) = (out.program o l).renumber g := by
  have hentries (ls : List ListingLine) :
      (ls.filterMap (ListingLine.coded? g)).filterMap ListingLine.debugEntry? =
        (ls.filterMap ListingLine.debugEntry?).map (DebugEntry.renumber g) := by
    rw [List.filterMap_filterMap, List.map_filterMap]
    exact List.filterMap_congr fun l _ => debugEntry?_coded hg l
  unfold Output.program Program.renumber Output.coded
  dsimp only
  rw [flatMap_bytes_coded, hentries]
  cases o.debug with
  | false => rfl
  | true => rfl

end

/-- An outcome with other numbers of lines: of the error's, or of those in the debug entries. -/
inductive Renumbered (g : Nat → Nat) :
    Except SourceError Assembled → Except SourceError Assembled → Prop
  | program {a b : Assembled} : b.program = a.program.renumber g → Renumbered g (.ok a) (.ok b)
  | error (e : SourceError) : Renumbered g (.error e) (.error (e.renumber g))

/-- Sources with layouts that come to the same have outcomes that come to the same. -/
theorem renumbered_of_ofSource {g : Nat → Nat} (hg : ∀ n, n ≤ g n) (o : AssemblyOptions)
    {s t : String}
    (h : mapBoth (SourceError.renumber g) (Layout.coded g) (Layout.ofSource o.origin s) =
      mapBoth (SourceError.renumber id) (Layout.coded id) (Layout.ofSource o.origin t)) :
    Renumbered g (assemble o s) (assemble o t) := by
  unfold assemble Layout.assemble
  rcases mapBoth_eq_cases h with ⟨l, l', hs, ht, hlayout⟩ | ⟨e, e', hs, ht, herror⟩
  · rw [hs, ht, ok_bind, ok_bind]
    have hemit := emit_congr_coded { entry := o.origin, secondMonitor := o.dualMonitor } hlayout rfl
    rcases mapBoth_eq_cases hemit with
      ⟨out, out', hout, hout', houtput⟩ | ⟨e, e', hout, hout', herror⟩
    · rw [hout, hout']
      refine .program ?_
      calc out'.program o l' = (out'.program o l').renumber id := (Program.renumber_id _).symm
        _ = (out'.coded id).program o (l'.coded id) :=
          (program_coded (fun _ => le_rfl) o l' out').symm
        _ = (out.coded g).program o (l.coded g) := by rw [houtput, hlayout]
        _ = (out.program o l).renumber g := program_coded hg o l out
    · rw [hout, hout']
      obtain rfl : e' = e.renumber g := herror.symm
      exact .error e
  · rw [hs, ht]
    obtain rfl : e' = e.renumber g := herror.symm
    exact .error e

/-- A blank line or a comment that is put between the lines of a source changes nothing but the
numbers of the lines from there on. What stands behind a line that ends the source changes
nothing. -/
theorem assemble_ignores_inert (o : AssemblyOptions) (s t : String) :
    (∀ (before after : List String) (text : String), IsInert text →
      splitLines s = before ++ after → splitLines t = before ++ text :: after →
        Renumbered (shiftLine (before.length + 1)) (assemble o s) (assemble o t)) ∧
    (∀ (before after after' : List String) (last : String), EndsSource last →
      splitLines s = before ++ last :: after → splitLines t = before ++ last :: after' →
        assemble o t = assemble o s) := by
  constructor
  case left =>
    intro before after text htext hs ht
    refine renumbered_of_ofSource (fun n => ?_) o ?_
    · unfold shiftLine
      split_ifs
      · exact Nat.le_succ n
      · exact le_rfl
    · rw [Layout.ofSource, Layout.ofSource, hs, ht]
      exact Layout.placeAll_insert htext (Nat.add_comm 1 _) rfl (Layout.valid_start o.origin)
  case right =>
    intro before after after' last hlast hs ht
    have hlayout : Layout.ofSource o.origin t = Layout.ofSource o.origin s := by
      rw [Layout.ofSource, Layout.ofSource, hs, ht]
      exact Layout.placeAll_last hlast 1
    rw [assemble, assemble, hlayout]

/-- A comment before a literal, and a line behind the end that has no tokens. -/
theorem inert_around_end :
    (IsInert "\t; text" ∧
      Renumbered (shiftLine 2) (assemble {} " LDA #1\n STR \"abc\"\n END")
        (assemble {} " LDA #1\n\t; text\n STR \"abc\"\n END")) ∧
    (EndsSource " END" ∧
      assemble {} " LDA #1\n END\n STR \"abc" = assemble {} " LDA #1\n END") := by
  have hend : EndsSource " END" := ⟨1, ⟨1, none, some (.finish none), none, " END"⟩,
    by decide +kernel, rfl⟩
  refine ⟨⟨by decide, ?_⟩, hend, ?_⟩
  · exact (assemble_ignores_inert {} _ _).1 [" LDA #1"] [" STR \"abc\"", " END"] "\t; text"
      (by decide) (by decide) (by decide)
  · exact (assemble_ignores_inert {} _ _).2 [" LDA #1"] [] [" STR \"abc"] " END" hend
      (by decide) (by decide)

end B33
