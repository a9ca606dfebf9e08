import B33.Proofs.Analysis.Encoding
import B33.Proofs.Analysis.Source
import B33.Proofs.Assembly.Written
import B33.Proofs.Text.Blank

/-!
# A program as a written source

The source text of a program is a header, and then for each decoded line its label, if it has one,
and its statement. So it is a written source in which every line is known for what it stands for. It
can be laid out again from the origin of the program on, whatever the bytes of the program are.
-/
namespace B33.Analysis
open Assembly Source

/-- The statement of a line with its note, which stands below the label. -/
def body (l : AnalysedLine) : String :=
  String.ofList (trimEnd ("    " ++ padRight 16 l.text ++ "; " ++ l.note).toList)

theorem toList_body (l : AnalysedLine) :
    (body l).toList = List.replicate 4 ' ' ++ (l.text.toList ++
      (List.replicate (16 - l.text.length) ' ' ++ ';' :: trimEnd (' ' :: l.note.toList))) := by
  have hparts : ("    " ++ padRight 16 l.text ++ "; " ++ l.note).toList =
      (List.replicate 4 ' ' ++ (l.text.toList ++ List.replicate (16 - l.text.length) ' ')) ++
        ';' :: ' ' :: l.note.toList := by
    simp [padRight]
  rw [body, String.toList_ofList, hparts, trimEnd_append_cons _ rfl]
  simp

theorem isLine_body {l : AnalysedLine} (ht : '\n' ∉ l.text.toList) (hn : '\n' ∉ l.note.toList) :
    IsLine (body l) := by
  constructor
  · rw [toList_body]
    intro h
    simp only [List.mem_append, List.mem_cons, List.mem_replicate] at h
    rcases h with ⟨-, h⟩ | h | ⟨-, h⟩ | h | h
    · cases h
    · exact ht h
    · cases h
    · cases h
    · rcases List.mem_cons.mp (mem_of_mem_trimEnd h) with h | h
      · cases h
      · exact hn h
  · intro h
    rw [body, String.toList_ofList] at h
    have hblank := getLast?_trimEnd h
    exact absurd hblank (by decide)

theorem toList_sourceLine (l : AnalysedLine) :
    (sourceLine l).toList = (l.label.toList ++ [body l]).flatMap fun t => t.toList ++ ['\n'] := by
  unfold sourceLine body
  cases l.label <;> simp

/-- What is known of the names and the notes of a program that a source was assembled to. -/
structure Writable (p : Program) : Prop where
  names : ∀ e ∈ p.labels.toList, IsName e.1
  distinct : (p.labels.toList.map fun e => foldCase e.1).Nodup
  notes : ∀ e ∈ p.debugEntries, '\n' ∉ e.text.toList
  length_le : p.bytes.length ≤ 0xFFFF
  end_le : p.endAddress ≤ 0x10000

theorem Writable.isName {p : Program} (h : Writable p) (address : UInt16) (name : String)
    (hp : placement p address = some name) : IsName name :=
  h.names _ (placement_eq_some hp).2

/-- No name is placed at two addresses, in either case. -/
theorem Writable.placement_inj {p : Program} (h : Writable p) {a b : UInt16} {x y : String}
    (ha : placement p a = some x) (hb : placement p b = some y) (hxy : foldCase x = foldCase y) :
    a = b := by
  have hx := (placement_eq_some ha).2
  have hy := (placement_eq_some hb).2
  exact congrArg Prod.snd (List.inj_on_of_nodup_map h.distinct hx hy hxy)

/-- A decoded line with what is written for it. -/
def analysed (p : Program) (d : Decoded) : AnalysedLine where
  address := d.address
  bytes := d.bytes
  label := placement p d.address
  text := (describe (placement p) d).1
  description := (describe (placement p) d).2
  source := (firstEntries p)[d.address]?.map (·.text)

theorem lines_eq (p : Program) : lines p = (decode p).map (analysed p) := rfl

theorem Writable.not_mem_note {p : Program} (h : Writable p) (d : Decoded) :
    '\n' ∉ (analysed p d).note.toList := by
  unfold AnalysedLine.note
  cases hs : (analysed p d).source with
  | none => exact not_mem_describe h.isName d
  | some text =>
      obtain ⟨e, he, rfl⟩ := Option.map_eq_some_iff.mp hs
      exact h.notes e (mem_of_firstEntries he)

/-- Whether the entry has a name, or is an address other than the origin. -/
def needsEntry (p : Program) : Bool := (placement p p.entry).isSome || p.entry != p.origin

/-- Whether the last decoded line is a halt. -/
def endsInHalt (p : Program) : Bool := (decode p).getLast?.any (·.bytes == [Instruction.haltOpcode])

theorem entryName?_eq (p : Program) :
    entryName? p (lines p) =
      if needsEntry p then some (targetText (placement p) p.entry) else none := by
  -- Where no line stands at the entry, no label is placed there either.
  have hlabel : ((lines p).find? (·.address == p.entry)).bind (·.label) =
      placement p p.entry := by
    rw [lines_eq, List.find?_map]
    cases hfind : (decode p).find? ((·.address == p.entry) ∘ analysed p) with
    | some d =>
        have hd : d.address = p.entry := by simpa [analysed] using List.find?_some hfind
        simp [analysed, hd]
    | none =>
        cases hp : placement p p.entry with
        | none => rfl
        | some name =>
            obtain ⟨d, hd, hentry⟩ := (placement_eq_some hp).1
            have hnot := List.find?_eq_none.mp hfind d hd
            simp [analysed, hentry] at hnot
  unfold entryName? needsEntry targetText
  rw [hlabel]
  cases hp : placement p p.entry with
  | some name => rfl
  | none =>
      by_cases hentry : p.entry = p.origin
      · simp [hentry]
      · simp [hentry]

/-- The decoded lines, each with whether it is written as the end of the source. -/
def marked (p : Program) : List (Decoded × Bool) :=
  if needsEntry p && endsInHalt p then
    (decode p).dropLast.map (·, false) ++ (decode p).getLast?.toList.map (·, true)
  else (decode p).map (·, false)

theorem marked_cases (p : Program) :
    ((needsEntry p && endsInHalt p) = false ∧ marked p = (decode p).map (·, false)) ∨
      ∃ before last, (needsEntry p && endsInHalt p) = true ∧ decode p = before ++ [last] ∧
        last.bytes = [Instruction.haltOpcode] ∧
        marked p = before.map (·, false) ++ [(last, true)] := by
  cases hboth : needsEntry p && endsInHalt p with
  | false => exact .inl ⟨rfl, by simp [marked, hboth]⟩
  | true =>
      have hends := (Bool.and_eq_true_iff.mp hboth).2
      cases hlast : (decode p).getLast? with
      | none => simp [endsInHalt, hlast] at hends
      | some last =>
          have hhalt : last.bytes = [Instruction.haltOpcode] := by
            simpa [endsInHalt, hlast] using hends
          refine .inr ⟨(decode p).dropLast, last, rfl, ?_, hhalt, ?_⟩
          · exact (List.dropLast_append_getLast? last hlast).symm
          · simp [marked, hboth, hlast]

theorem marked_fst (p : Program) : (marked p).map Prod.fst = decode p := by
  have hid : Prod.fst ∘ (fun d : Decoded => (d, false)) = id := rfl
  rcases marked_cases p with ⟨-, h⟩ | ⟨before, last, -, hdecode, -, h⟩
  · simp [h, hid]
  · simp [h, hdecode, hid]

/-- Only a halt is written as the end of the source. -/
theorem halt_of_marked {p : Program} {d : Decoded} (h : (d, true) ∈ marked p) :
    d.bytes = [Instruction.haltOpcode] := by
  rcases marked_cases p with ⟨-, hm⟩ | ⟨before, last, -, -, hhalt, hm⟩
  · simp [hm] at h
  · rw [hm] at h
    simp only [List.mem_append, List.mem_map, Prod.mk.injEq, Bool.false_eq_true, and_false,
      exists_false, List.mem_singleton, and_true, false_or] at h
    rw [h]
    exact hhalt

/-- The line of a decoded line, or the end of the source. -/
def printed (p : Program) : Decoded × Bool → AnalysedLine
  | (d, false) => analysed p d
  | (d, true) => { analysed p d with text := "END " ++ targetText (placement p) p.entry }

theorem nameEntry_eq (p : Program) :
    nameEntry (entryName? p (lines p)) (lines p) = (marked p).map (printed p) := by
  have hall : (decode p).map (printed p ∘ (·, false)) = lines p := rfl
  rw [entryName?_eq]
  cases hneeds : needsEntry p with
  | false => simp [marked, hneeds, nameEntry, hall]
  | true =>
      cases hlast : (decode p).getLast? with
      | none => simp [marked, hneeds, endsInHalt, hlast, nameEntry, hall, lines_eq]
      | some last =>
          have hgetLast : (lines p).getLast? = some (analysed p last) := by simp [lines_eq, hlast]
          have hhalt : isHalt (analysed p last) = endsInHalt p := by simp [endsInHalt, hlast]; rfl
          simp only [if_true, nameEntry, hgetLast, hhalt, marked, hneeds, Bool.true_and]
          cases endsInHalt p with
          | false => simp [hall]
          | true => simp [hlast, lines_eq, printed]; rfl

/-- The statement of a decoded line, or the end of the source. -/
def lineStatement (p : Program) : Decoded × Bool → Statement
  | (d, false) => statementOf (placement p) d
  | (_, true) => .finish (some (targetExpression (placement p) p.entry))

def labelLine (p : Program) (d : Decoded) : List Written :=
  (placement p d.address).toList.map fun name =>
    { text := name, label := some name, address := d.address }

def statementLine (p : Program) (x : Decoded × Bool) : Written where
  text := body (printed p x)
  statement := some (lineStatement p x)
  address := x.1.address
  bytes := x.1.bytes
  entry := if x.2 then some p.entry else none

/-- The lines that a decoded line is written as. -/
def pieces (p : Program) (x : Decoded × Bool) : List Written :=
  labelLine p x.1 ++ [statementLine p x]

def header (p : Program) : Written where
  text := "; origin $" ++ Numeral.word p.origin ++ ", entry $" ++ Numeral.word p.entry
  address := p.origin

/-- The lines that a program is written as. -/
def written (p : Program) : List Written := header p :: (marked p).flatMap (pieces p)

theorem toList_printed (p : Program) (x : Decoded × Bool) :
    (sourceLine (printed p x)).toList = (pieces p x).flatMap fun w => w.text.toList ++ ['\n'] := by
  have hlabel : (printed p x).label = placement p x.1.address := by
    obtain ⟨d, _ | _⟩ := x <;> rfl
  rw [toList_sourceLine, hlabel]
  simp [pieces, labelLine, statementLine, List.flatMap_map]

theorem toList_toSource (p : Program) :
    (toSource p).toList = ((written p).map (·.text)).flatMap fun t => t.toList ++ ['\n'] := by
  have hjoin : (String.join (((marked p).map (printed p)).map sourceLine)).toList =
      ((marked p).flatMap (pieces p)).flatMap fun w => w.text.toList ++ ['\n'] := by
    rw [String.toList_join, List.map_map, List.flatMap_map, List.flatMap_assoc]
    exact List.flatMap_congr fun x _ => toList_printed p x
  unfold toSource
  dsimp only
  rw [nameEntry_eq, String.toList_append, hjoin, written, List.flatMap_map, List.flatMap_cons]
  simp [header]

section
variable {p : Program} (h : Writable p)
include h

theorem spelled_printed {x : Decoded × Bool} (hd : x.1.Valid) :
    Spelled (printed p x).text.toList (lineStatement p x) := by
  obtain ⟨d, _ | _⟩ := x
  · exact spelled_describe h.isName hd
  · exact spelled_finish h.isName p.entry

theorem not_mem_printed (x : Decoded × Bool) : '\n' ∉ (printed p x).note.toList := by
  obtain ⟨d, _ | _⟩ := x
  · exact h.not_mem_note d
  · exact h.not_mem_note d

/-- A written line is a line of text, and it is read as what it was written for. -/
theorem readsAs_of_mem_pieces {x : Decoded × Bool} (hd : x.1.Valid) :
    ∀ w ∈ pieces p x, IsLine w.text ∧ ReadsAs w.text w.label w.statement := by
  intro w hw
  rcases List.mem_append.mp hw with hw | hw
  · obtain ⟨name, hname, rfl⟩ := List.mem_map.mp hw
    have hn := h.isName x.1.address name (Option.mem_toList.mp hname)
    exact ⟨isLine_of_not_mem (hn.not_mem rfl) (hn.not_mem rfl), readsAs_label hn⟩
  · obtain rfl := List.mem_singleton.mp hw
    have hspelled := spelled_printed h hd
    exact ⟨isLine_body hspelled.line (not_mem_printed h x),
      hspelled.spellsOut.readsAs_comment (n := 4) (by decide) (toList_body _)⟩

end

theorem isLine_header (p : Program) : IsLine (header p).text := by
  have hnot {c : Char} (hc : c.isAlphanum = false)
      (ht : c ∉ "; origin $".toList ++ ", entry $".toList) : c ∉ (header p).text.toList := by
    have hword (w : UInt16) : c ∉ (Numeral.word w).toList := Numeral.not_mem_hex _ _ hc
    simp only [header, String.toList_append, List.mem_append, not_or] at ht ⊢
    exact ⟨⟨⟨ht.1, hword _⟩, ht.2⟩, hword _⟩
  exact isLine_of_not_mem (hnot rfl (by decide)) (hnot rfl (by decide))

theorem readsAs_header (p : Program) : ReadsAs (header p).text none none := by
  have htext : ∃ cs, (header p).text.toList = ';' :: cs := ⟨_, by simp [header]; rfl⟩
  obtain ⟨cs, hcs⟩ := htext
  have hlex := lexes_comment cs
  rw [← hcs] at hlex
  have htrivia : Trivia [.comment (.ofList cs)] := by simp [Trivia, TokenKind.isTrivia]
  exact readsAs_statement hlex (dropWhile_of_head?_ne (by simp)) (by simp) (parses_nothing htrivia) htrivia

end B33.Analysis
