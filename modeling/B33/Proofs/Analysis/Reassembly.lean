import B33.Proofs.Analysis.Written

/-!
# Assembling the analysis again

The source text of an assembled program can always be laid out again, and then every line gives the
bytes it was decoded from, unless it is a branch out of memory. So the program comes back byte for
byte, or the first such branch is refused.
-/
namespace B33
open Assembly Source

namespace Analysis

theorem sized_statementLine {p : Program} {x : Decoded × Bool} (hd : x.1.Valid)
    (hx : x.2 = true → x.1.bytes = [Instruction.haltOpcode]) : (statementLine p x).Sized := by
  obtain ⟨d, _ | _⟩ := x
  · refine ⟨fun e => ?_, sizeOf_statementOf hd⟩
    rcases statementOf_cases (placement p) d with ⟨es, hs⟩ | ⟨m, operand, hs⟩
    · simp [lineStatement, hs]
    · simp [lineStatement, hs]
  · have hhalt : d.bytes = [Instruction.haltOpcode] := hx rfl
    refine ⟨nofun, fun symbols => ?_⟩
    show Except.ok 1 = Except.ok d.bytes.length
    rw [hhalt]
    rfl

theorem contiguous_pieces {p : Program} {n : Nat} {xs : List (Decoded × Bool)} {bs : List UInt8}
    (hs : Spans n (xs.map Prod.fst) bs) (hend : n + bs.length ≤ 0x10000)
    (hx : ∀ x ∈ xs, x.2 = true → x.1.bytes = [Instruction.haltOpcode]) :
    Contiguous n (xs.flatMap (pieces p)) (n + bs.length) := by
  induction xs generalizing n bs with
  | nil =>
      cases hs
      exact .nil n
  | cons x xs ih =>
      obtain ⟨hx, hxs⟩ := List.forall_mem_cons.mp hx
      rw [List.map_cons] at hs
      cases hs with
      | cons hd ha hs =>
          have hpos := hd.length_pos
          rw [List.length_append] at hend ⊢
          have hlabel : Contiguous n (labelLine p x.1) n := by
            unfold labelLine
            cases placement p x.1.address with
            | none => exact .nil n
            | some name =>
                have hn : n ≤ 0xFFFF := by omega
                exact .cons rfl ha (fun _ => hn) (.nil _)
          have hrest := ih hs (by omega) hxs
          rw [Nat.add_assoc] at hrest
          rw [List.flatMap_cons, pieces, List.append_assoc]
          exact hlabel.append (.cons (sized_statementLine hd hx) ha (by simp [statementLine]) hrest)

theorem labels_written (p : Program) :
    (written p).filterMap (·.label) = (decode p).filterMap fun d => placement p d.address := by
  have hpieces (x : Decoded × Bool) :
      (pieces p x).filterMap (·.label) = (placement p x.1.address).toList := by
    unfold pieces labelLine
    cases placement p x.1.address <;> rfl
  rw [written, List.filterMap_cons_none rfl, List.filterMap_flatMap, ← marked_fst p,
    List.filterMap_map, List.filterMap_eq_flatMap_toList]
  exact List.flatMap_congr fun x _ => hpieces x

theorem plain_of_mem_labelLine {p : Program} {d : Decoded} {w : Written}
    (h : w ∈ labelLine p d) : w.statement = none ∧ w.bytes = [] ∧ w.entry = none := by
  obtain ⟨name, -, rfl⟩ := List.mem_map.mp h
  exact ⟨rfl, rfl, rfl⟩

/-- Only the end of the source ends it and names the entry. -/
theorem plain_of_mem {p : Program} {ds : List Decoded} {w : Written}
    (h : w ∈ header p :: (ds.map (·, false)).flatMap (pieces p)) :
    w.entry = none ∧ ∀ e, w.statement ≠ some (.finish e) := by
  rcases List.mem_cons.mp h with rfl | h
  · exact ⟨rfl, nofun⟩
  · obtain ⟨x, hx, h⟩ := List.mem_flatMap.mp h
    obtain ⟨d, -, rfl⟩ := List.mem_map.mp hx
    rcases List.mem_append.mp h with h | h
    · obtain ⟨hs, -, he⟩ := plain_of_mem_labelLine h
      exact ⟨he, by simp [hs]⟩
    · obtain rfl := List.mem_singleton.mp h
      exact ⟨rfl, fun e he => statementOf_ne_finish _ _ e (Option.some.inj he)⟩

/-- Either no line is the end of the source, or the last one is. -/
theorem written_cases (p : Program) :
    ((needsEntry p && endsInHalt p) = false ∧
        written p = header p :: ((decode p).map (·, false)).flatMap (pieces p)) ∨
      ∃ (before : List Decoded) (last : Decoded), (needsEntry p && endsInHalt p) = true ∧
        written p = (header p :: (before.map (·, false)).flatMap (pieces p) ++ labelLine p last) ++
          [statementLine p (last, true)] := by
  rcases marked_cases p with ⟨hboth, hm⟩ | ⟨before, last, hboth, -, -, hm⟩
  · exact .inl ⟨hboth, by rw [written, hm]⟩
  · exact .inr ⟨before, last, hboth, by simp [written, hm, pieces]⟩

theorem ne_finish_of_mem_dropLast {p : Program} {w : Written} (h : w ∈ (written p).dropLast)
    (e : Option Expression) : w.statement ≠ some (.finish e) := by
  rcases written_cases p with ⟨-, hwritten⟩ | ⟨before, last, -, hwritten⟩
  · have hmem := (List.dropLast_sublist _).subset h
    rw [hwritten] at hmem
    exact (plain_of_mem hmem).2 e
  · rw [hwritten, List.dropLast_concat] at h
    rcases List.mem_append.mp h with h | h
    · exact (plain_of_mem h).2 e
    · simp [(plain_of_mem_labelLine h).1]

theorem valid_of_mem_marked {p : Program} {x : Decoded × Bool} (hx : x ∈ marked p) :
    x.1.Valid := by
  refine (decode_spans p).valid x.1 ?_
  rw [← marked_fst p]
  exact List.mem_map_of_mem hx

section
variable {p : Program} (h : Writable p)
include h

theorem names_written : (((written p).filterMap (·.label)).map foldCase).Nodup := by
  have hpairwise := ((decode_spans p).pairwise h.end_le).2
  rw [labels_written, List.Nodup, List.pairwise_map, List.pairwise_filterMap]
  refine hpairwise.imp ?_
  intro c d hlt x hx y hy hxy
  have haddress := h.placement_inj hx hy hxy
  rw [haddress] at hlt
  exact Nat.lt_irrefl _ hlt

theorem writes_toSource : Writes p.origin (toSource p) (written p) := by
  have hreads : ∀ w ∈ written p, IsLine w.text ∧ ReadsAs w.text w.label w.statement := by
    intro w hw
    rcases List.mem_cons.mp hw with rfl | hw
    · exact ⟨isLine_header p, readsAs_header p⟩
    · obtain ⟨x, hx, hw⟩ := List.mem_flatMap.mp hw
      exact readsAs_of_mem_pieces h (valid_of_mem_marked hx) w hw
  have hspans := decode_spans p
  rw [← marked_fst p] at hspans
  have hhalt : ∀ x ∈ marked p, x.2 = true → x.1.bytes = [Instruction.haltOpcode] := by
    rintro ⟨d, _⟩ hx rfl
    exact halt_of_marked hx
  have hend := h.end_le
  have hlength := h.length_le
  constructor
  · refine splitLines_eq ?_ (toList_toSource p)
    intro l hl
    obtain ⟨w, hw, rfl⟩ := List.mem_map.mp hl
    exact (hreads w hw).1
  · exact fun w hw => (hreads w hw).2
  · exact fun w hw e => ne_finish_of_mem_dropLast hw e
  · refine ⟨p.origin.toNat + p.bytes.length, hend, by omega, ?_⟩
    exact .cons rfl UInt16.ofNat_toNat.symm nofun (contiguous_pieces hspans hend hhalt)
  · exact names_written h

end

/-- The bytes of a decoded line come back, and the end of the source names the entry. -/
theorem emits_of_mem_pieces {p : Program} {symbols : Symbols}
    (henv : ∀ address name, placement p address = some name →
      symbols.value? name = some (address.toNat : Int))
    {x : Decoded × Bool} (hx : x ∈ marked p) (hw : ¬x.1.Wraps) :
    ∀ w ∈ pieces p x, w.Emits symbols := by
  intro w hmem
  rcases List.mem_append.mp hmem with hmem | hmem
  · obtain ⟨hs, hb, he⟩ := plain_of_mem_labelLine hmem
    exact Written.emits_of_none hs hb he
  · obtain rfl := List.mem_singleton.mp hmem
    obtain ⟨d, _ | _⟩ := x
    · have henc := encodes_statementOf henv (valid_of_mem_marked hx) hw
      obtain ⟨out, hout, hbytes, hentry⟩ := exists_emitStatement henc
      exact ⟨out, hout, hbytes, hentry (statementOf_ne_finish _ _)⟩
    · have hlt := p.entry.toNat_lt
      have hvalue := value_targetExpression henv p.entry
      have haddress := @addressOf_eq_ok_iff p.entry.toNat p.entry
      have hword := haddress.mpr ⟨by omega, by omega, (ofInt_toNat p.entry).symm⟩
      refine ⟨{ bytes := [Instruction.haltOpcode], entry := some p.entry }, ?_, ?_, rfl⟩
      · show emitStatement symbols d.address (.finish (some _)) = _
        simp only [emitStatement, hvalue, hword, ok_bind]
        rfl
      · exact (halt_of_marked hx).symm

theorem emits_of_mem {p : Program} {symbols : Symbols}
    (henv : ∀ address name, placement p address = some name →
      symbols.value? name = some (address.toNat : Int))
    {xs : List (Decoded × Bool)} (hxs : ∀ x ∈ xs, x ∈ marked p ∧ ¬x.1.Wraps) :
    ∀ w ∈ header p :: xs.flatMap (pieces p), w.Emits symbols := by
  intro w hw
  rcases List.mem_cons.mp hw with rfl | hw
  · exact Written.emits_of_none rfl rfl rfl
  · obtain ⟨x, hx, hw⟩ := List.mem_flatMap.mp hw
    exact emits_of_mem_pieces henv (hxs x hx).1 (hxs x hx).2 w hw

theorem bytes_written (p : Program) : (written p).flatMap (·.bytes) = p.bytes := by
  have hspans {n : Nat} {ds : List Decoded} {bs : List UInt8} (hs : Spans n ds bs) :
      ds.flatMap (·.bytes) = bs := by
    induction hs with
    | nil => rfl
    | cons _ _ _ ih => rw [List.flatMap_cons, ih]
  have hpieces (x : Decoded × Bool) : (pieces p x).flatMap (·.bytes) = x.1.bytes := by
    unfold pieces labelLine
    cases placement p x.1.address <;> simp [statementLine]
  rw [← hspans (decode_spans p), ← marked_fst p, List.flatMap_map, written, List.flatMap_cons,
    List.flatMap_assoc]
  exact List.flatMap_congr fun x _ => hpieces x

theorem foldl_entry {ws : List Written} (h : ∀ w ∈ ws, w.entry = none) (entry : UInt16) :
    ws.foldl (fun e w => w.entry.getD e) entry = entry := by
  induction ws with
  | nil => rfl
  | cons w ws ih =>
      obtain ⟨hw, hws⟩ := List.forall_mem_cons.mp h
      rw [List.foldl_cons, hw]
      exact ih hws

theorem entry_written (p : Program) :
    (written p).foldl (fun e w => w.entry.getD e) p.origin =
      if p.entry = p.origin ∨ endsInHalt p then p.entry else p.origin := by
  rcases written_cases p with ⟨hboth, hwritten⟩ | ⟨before, last, hboth, hwritten⟩
  · rw [hwritten, foldl_entry fun w hw => (plain_of_mem hw).1]
    by_cases hentry : p.entry = p.origin
    · rw [if_pos (.inl hentry), hentry]
    · have hneeds : needsEntry p = true := by simp [needsEntry, hentry]
      rw [hneeds, Bool.true_and] at hboth
      rw [hboth, if_neg (by simp [hentry])]
  · have hends := (Bool.and_eq_true_iff.mp hboth).2
    rw [hwritten, List.foldl_append, hends, if_pos (.inr rfl)]
    rfl

/-- The number of the line with the statement of a decoded line: the header is line 1, and every
label before it takes a line as well. -/
def lineNumber (p : Program) (k : Nat) : Nat :=
  k + 2 + ((lines p).take (k + 1)).countP (·.label.isSome)

theorem length_labelLine (p : Program) (d : Decoded) :
    (labelLine p d).length = [analysed p d].countP (·.label.isSome) := by
  rw [List.countP_singleton, labelLine, List.length_map]
  show (placement p d.address).toList.length = if (placement p d.address).isSome then 1 else 0
  cases placement p d.address <;> rfl

theorem length_flatMap_pieces (p : Program) (xs : List (Decoded × Bool)) :
    (xs.flatMap (pieces p)).length =
      xs.length + ((xs.map Prod.fst).map (analysed p)).countP (·.label.isSome) := by
  induction xs with
  | nil => rfl
  | cons x xs ih =>
      have hpieces : (pieces p x).length = (labelLine p x.1).length + 1 := List.length_append
      have hcount := @List.countP_append _ (·.label.isSome) [analysed p x.1]
        ((xs.map Prod.fst).map (analysed p))
      rw [List.singleton_append] at hcount
      rw [List.flatMap_cons, List.length_append, ih, hpieces, length_labelLine, List.map_cons,
        List.map_cons, hcount, List.length_cons]
      omega

/-- Where the statement of a decoded line stands that is not a halt. -/
theorem written_eq_append {p : Program} {before after : List Decoded} {d : Decoded}
    (hdecode : decode p = before ++ d :: after) (hd : d.bytes ≠ [Instruction.haltOpcode]) :
    ∃ (xs : List (Decoded × Bool)) (below : List Written), (∀ x ∈ xs, x ∈ marked p ∧ x.1 ∈ before) ∧
      written p = (header p :: xs.flatMap (pieces p) ++ labelLine p d) ++
        statementLine p (d, false) :: below ∧
      1 + (header p :: xs.flatMap (pieces p) ++ labelLine p d).length =
        lineNumber p before.length := by
  have hmarked := marked_fst p
  rw [hdecode] at hmarked
  obtain ⟨xs, rest, hm, hbefore, hrest⟩ := List.map_eq_append_iff.mp hmarked
  obtain ⟨⟨c, final⟩, ys, rfl, hc, -⟩ := List.map_eq_cons_iff.mp hrest
  dsimp only at hc
  subst hc
  -- The end of the source stands for a halt, so this line is not written as that.
  have hfinal : final = false := by
    rw [Bool.eq_false_iff]
    rintro rfl
    have hmem : (c, true) ∈ marked p := by simp [hm]
    exact hd (halt_of_marked hmem)
  subst hfinal
  refine ⟨xs, ys.flatMap (pieces p), ?_, ?_, ?_⟩
  · intro x hx
    constructor
    · rw [hm]
      exact List.mem_append_left _ hx
    · rw [← hbefore]
      exact List.mem_map_of_mem hx
  · simp [written, hm, pieces]
  · have htake : (lines p).take (before.length + 1) = (before ++ [c]).map (analysed p) := by
      have hsplit : decode p = (before ++ [c]) ++ after := by simp [hdecode]
      have hlength : before.length + 1 = (before ++ [c]).length := by simp
      rw [lines_eq, ← List.map_take, hsplit, hlength, List.take_left]
    have hlength : before.length = xs.length := by rw [← hbefore, List.length_map]
    rw [lineNumber, htake, List.map_append, List.countP_append, List.length_append,
      List.length_cons, length_flatMap_pieces, hbefore, length_labelLine, hlength,
      List.map_singleton]
    omega

theorem writable_of_assemble {o : AssemblyOptions} {source : String} {a : Assembled}
    (h : assemble o source = .ok a) : Writable a.program := by
  obtain ⟨l, out, hl, hout, ha⟩ := assemble_eq_ok h
  have hc : a.Consistent o.origin source l.symbols.value? := by
    rw [ha]
    exact consistent_of_emit hl hout
  have hlabelled (x : ListingLine) (name : String) (hx : x.line.addressLabel? = some name) :
      x.line.label = some name := by
    unfold Line.addressLabel? at hx
    split_ifs at hx
    exact hx
  have hnames : ∀ line ∈ a.listing.map (·.line), ∀ name, line.label = some name → IsName name :=
    forall_of_readLines (fun _ _ _ _ hp _ => Line.isName_of_parse hp) hc.lines_eq
  have hsources : ∀ line ∈ a.listing.map (·.line), '\n' ∉ line.source.toList := by
    refine forall_of_readLines (fun number text ht line hp => ?_) hc.lines_eq
    rw [Line.source_of_parse hp]
    exact not_mem_of_mem_splitLines ht
  constructor
  · intro e he
    rw [hc.labels_eq] at he
    obtain ⟨x, hx, he⟩ := List.mem_filterMap.mp he
    obtain ⟨name, hname, rfl⟩ := Option.map_eq_some_iff.mp he
    exact hnames _ (List.mem_map_of_mem hx) name (hlabelled x name hname)
  · have hnodup := hc.names
    rw [List.Nodup, List.pairwise_map, List.pairwise_filterMap] at hnodup
    rw [hc.labels_eq, List.Nodup, List.pairwise_map, List.pairwise_filterMap]
    refine hnodup.imp ?_
    intro x y hxy e he e' he'
    obtain ⟨name, hname, rfl⟩ := Option.map_eq_some_iff.mp he
    obtain ⟨name', hname', rfl⟩ := Option.map_eq_some_iff.mp he'
    exact hxy name (hlabelled x name hname) name' (hlabelled y name' hname')
  · intro e he hmem
    rw [ha] at he
    dsimp only [Output.program] at he
    split_ifs at he
    · obtain ⟨x, hx, hentry⟩ := List.mem_filterMap.mp he
      unfold ListingLine.debugEntry? at hentry
      split_ifs at hentry
      cases hentry
      rw [trimString, String.toList_ofList] at hmem
      have hline : x.line ∈ a.listing.map (·.line) := by
        rw [ha]
        exact List.mem_map_of_mem hx
      exact hsources _ hline (mem_of_mem_trim hmem)
    · cases he
  · exact hc.length_le
  · rw [Program.endAddress, hc.origin_eq]
    exact hc.end_le

/-- What comes of assembling the source text of a program again. -/
structure Reassembles (p : Program) (result : Except SourceError Assembled) : Prop where
  /-- The bytes come back just if no branch goes out of memory. -/
  bytes : (∃ b, result = .ok b ∧ b.program.bytes = p.bytes) ↔ ∀ d ∈ decode p, ¬d.Wraps
  /-- The first branch that does is refused on its line: its target is the destination modulo the
  size of memory, and too far from the next instruction. -/
  refused : ∀ before d after, decode p = before ++ d :: after → (∀ c ∈ before, ¬c.Wraps) →
    ∀ v ∈ d.destination?, ¬(0 ≤ v ∧ v ≤ 0xFFFF) →
      result = .error ⟨lineNumber p before.length,
        .outOfRange (v % 65536 - (d.address.toNat + d.bytes.length)) (-128) 127⟩ ∧
      (splitLines (toSource p))[lineNumber p before.length - 1]? = some (body (analysed p d))
  /-- An entry away from the origin needs a halt at the end. -/
  entry : ∀ b, result = .ok b →
    b.program.entry = if p.entry = p.origin ∨ endsInHalt p then p.entry else p.origin

/-- A placed name stands for its address in the layout of the source text. -/
theorem value?_of_laid {p : Program} {origin : UInt16} {l : Layout} (hv : l.Valid origin)
    (hlaid : Laid 1 (written p) l.lines.toList) (address : UInt16) (name : String)
    (hname : placement p address = some name) :
    l.symbols.value? name = some (address.toNat : Int) := by
  obtain ⟨d, hd, rfl⟩ := (placement_eq_some hname).1
  rw [← marked_fst p] at hd
  obtain ⟨x, hx, rfl⟩ := List.mem_map.mp hd
  have hline : { text := name, label := some name, address := x.1.address } ∈ written p := by
    refine List.mem_cons_of_mem _ (List.mem_flatMap.mpr ⟨x, hx, List.mem_append_left _ ?_⟩)
    exact List.mem_map.mpr ⟨name, Option.mem_toList.mpr hname, rfl⟩
  exact hlaid.value?_eq hv hline rfl rfl

section
variable {p : Program} {o : AssemblyOptions} {l : Layout}
  (hl : Layout.ofSource o.origin (toSource p) = .ok l) (hlaid : Laid 1 (written p) l.lines.toList)
  (henv : ∀ address name, placement p address = some name →
    l.symbols.value? name = some (address.toNat : Int))
include hl hlaid henv

theorem exists_assemble_toSource (ho : o.origin = p.origin) (hd : ∀ d ∈ decode p, ¬d.Wraps) :
    ∃ b, assemble o (toSource p) = .ok b ∧ b.program.bytes = p.bytes ∧
      b.program.entry = if p.entry = p.origin ∨ endsInHalt p then p.entry else p.origin := by
  have hemits : ∀ w ∈ written p, w.Emits l.symbols := by
    refine emits_of_mem henv fun x hx => ⟨hx, hd x.1 ?_⟩
    rw [← marked_fst p]
    exact List.mem_map_of_mem hx
  obtain ⟨b, hb, hbytes, hentry⟩ := exists_assemble_of_emits hl hlaid hemits
  refine ⟨b, hb, ?_, ?_⟩
  · rw [hbytes, bytes_written]
  · rw [hentry, ho, entry_written]

theorem assemble_toSource_of_wraps {before after : List Decoded} {d : Decoded} {v : Int}
    (hdecode : decode p = before ++ d :: after) (hbefore : ∀ c ∈ before, ¬c.Wraps)
    (hv : v ∈ d.destination?) (hout : ¬(0 ≤ v ∧ v ≤ 0xFFFF)) :
    assemble o (toSource p) = .error ⟨lineNumber p before.length,
        .outOfRange (v % 65536 - (d.address.toNat + d.bytes.length)) (-128) 127⟩ ∧
      ((written p).map (·.text))[lineNumber p before.length - 1]? = some (body (analysed p d)) := by
  have hvalid : d.Valid := (decode_spans p).valid d (by simp [hdecode])
  have hnot : d.bytes ≠ [Instruction.haltOpcode] := by
    intro hbytes
    rw [Decoded.destination?, hbytes] at hv
    simp at hv
  obtain ⟨xs, below, hxs, hwritten, hnumber⟩ := written_eq_append hdecode hnot
  have habove : ∀ w ∈ header p :: xs.flatMap (pieces p) ++ labelLine p d,
      w.Emits l.symbols := by
    intro w hw
    rcases List.mem_append.mp hw with hw | hw
    · exact emits_of_mem henv (fun x hx => ⟨(hxs x hx).1, hbefore _ (hxs x hx).2⟩) w hw
    · obtain ⟨hs, hb, he⟩ := plain_of_mem_labelLine hw
      exact Written.emits_of_none hs hb he
  have herror := emitStatement_of_wraps henv hvalid hv hout
  rw [← hnumber]
  constructor
  · exact assemble_of_error hl hlaid hwritten habove rfl herror
  · rw [Nat.add_sub_cancel_left, hwritten, List.map_append, List.getElem?_append_right]
    · simp [statementLine, printed]
    · rw [List.length_map]

end

/-- A list of decoded lines has a first branch out of memory, or none. -/
theorem exists_first_wraps {ds : List Decoded} (h : ∃ d ∈ ds, d.Wraps) :
    ∃ before d after, ds = before ++ d :: after ∧ (∀ c ∈ before, ¬c.Wraps) ∧ d.Wraps := by
  obtain ⟨d, hd⟩ : ∃ d, ds.find? (·.Wraps) = some d := by
    rw [← Option.isSome_iff_exists, List.find?_isSome]
    simpa using h
  obtain ⟨hw, before, after, hds, hbefore⟩ := List.find?_eq_some_iff_append.mp hd
  exact ⟨before, d, after, hds, by simpa using hbefore, by simpa using hw⟩

end Analysis

open Analysis

end B33
