import B33.Proofs.Source.Line
import B33.Proofs.Source.Spelling

/-!
# Statements that are printed and read again

A statement that was read from a line is printed and read as itself, whatever the radix of its
numbers, its signs and its blanks were. A definition is printed behind its label, and every other
statement behind a blank.
-/
namespace B33

theorem Numeral.toList_integer (n : Nat) : (integer n).toList = (decimal n).toList := by
  rw [integer, if_neg (by omega), Int.natAbs_natCast]

theorem Numeral.toList_integer_neg {n : Nat} (hn : n ≠ 0) :
    (integer (-n)).toList = '-' :: (decimal n).toList := by
  rw [integer, if_pos (by omega), Int.natAbs_neg, Int.natAbs_natCast]
  simp

namespace Source

theorem fallsInto_number {n : Int} (hn : n.natAbs < 0x100000000) :
    FallsInto (Expression.number n).text.toList (Spells (.number n)) := by
  unfold Expression.text
  obtain ⟨k, rfl | rfl⟩ := n.eq_nat_or_neg
  · rw [Int.natAbs_natCast] at hn
    dsimp only
    split_ifs
    · intro rest kinds hr hlex
      refine ⟨_, .number .decimal k, List.cons_ne_nil _ _, ?_⟩
      rw [Numeral.toList_integer]
      exact lexes_decimal hn hr hlex
    · have hhex := @fallsInto_hex 0 k hn
      simpa using hhex
  · rw [Int.natAbs_neg, Int.natAbs_natCast] at hn
    dsimp only
    rw [if_pos (by omega)]
    intro rest kinds hr hlex
    by_cases hk : k = 0
    · subst hk
      exact ⟨_, .number .decimal 0, List.cons_ne_nil _ _, lexes_decimal hn hr hlex⟩
    · refine ⟨_, .negative .decimal k, List.cons_ne_nil _ _, ?_⟩
      rw [Numeral.toList_integer_neg hk]
      exact lexes_minus (lexes_decimal hn hr hlex)

theorem fallsInto_symbol {name : String} {offset : Int} (hname : IsName name)
    (ho : offset.natAbs < 0x100000000) :
    FallsInto (Expression.symbol name offset).text.toList (Spells (.symbol name offset)) := by
  unfold Expression.text
  dsimp only
  split_ifs with hzero hneg
  · subst hzero
    exact fallsInto_name hname
  · obtain ⟨k, rfl⟩ := Int.exists_eq_neg_ofNat (Int.le_of_lt hneg)
    rw [Int.natAbs_neg, Int.natAbs_natCast] at ho
    have hk : k ≠ 0 := by omega
    intro rest kinds hr hlex
    refine ⟨_, .before name .decimal k, List.cons_ne_nil _ _, ?_⟩
    rw [String.toList_append, Numeral.toList_integer_neg hk, List.append_assoc]
    exact hname.lexes (endsWord_cons rfl _) (lexes_minus (lexes_decimal ho hr hlex))
  · obtain ⟨k, rfl⟩ := Int.eq_ofNat_of_zero_le (Int.not_lt.mp hneg)
    rw [Int.natAbs_natCast] at ho
    intro rest kinds hr hlex
    refine ⟨_, .after name .decimal k, List.cons_ne_nil _ _, ?_⟩
    rw [String.toList_append, String.toList_append, Numeral.toList_integer, List.append_assoc,
      List.append_assoc]
    exact hname.lexes (endsWord_cons rfl _) (lexes_plus (lexes_decimal ho hr hlex))

theorem Expression.Valid.fallsInto {e : Expression} (he : e.Valid) :
    FallsInto e.text.toList (Spells e) := by
  cases e with
  | number n => exact fallsInto_number he
  | symbol name offset => exact fallsInto_symbol he.1 he.2

theorem Operand.Valid.fallsInto {operand : Operand} (ho : operand.Valid)
    (hne : operand ≠ .inherent) : FallsInto operand.text.toList (SpellsOperand operand) := by
  cases operand with
  | inherent => exact (hne rfl).elim
  | immediate e =>
      rw [Operand.text, String.toList_append]
      exact (Expression.Valid.fallsInto ho).immediate
  | address e => exact (Expression.Valid.fallsInto ho).mono fun _ => .address
  | indexed form => exact fallsInto_form ho

/-- The written values of a directive, from the second on. -/
def furtherText (es : List Expression) : List Char := es.flatMap fun e => ',' :: e.text.toList

theorem toList_values (e : Expression) (es : List Expression) :
    (",".intercalate ((e :: es).map Expression.text)).toList = e.text.toList ++ furtherText es := by
  induction es generalizing e with
  | nil => simp [furtherText]
  | cons next es ih =>
      rw [List.map_cons, List.map_cons, String.intercalate_cons_cons, ← List.map_cons,
        String.toList_append, String.toList_append, ih, furtherText, furtherText, List.flatMap_cons]
      simp

theorem lexes_further {es : List Expression} {rest : List Char} {kinds : List TokenKind}
    (hes : ∀ e ∈ es, e.Valid) (hr : EndsWord rest) (h : Lexes rest kinds) :
    ∃ ks, SpellsFurther es ks ∧ EndsWord (furtherText es ++ rest) ∧
      Lexes (furtherText es ++ rest) (ks ++ kinds) := by
  induction es with
  | nil => exact ⟨[], .nil, hr, h⟩
  | cons e es ih =>
      obtain ⟨he, hes⟩ := List.forall_mem_cons.mp hes
      obtain ⟨further, hfurther, hends, hlex⟩ := ih hes
      obtain ⟨ks, hks, -, hlex⟩ := he.fallsInto _ _ hends hlex
      refine ⟨_, .cons hks hfurther, endsWord_cons rfl _, ?_⟩
      rw [furtherText, List.flatMap_cons, List.append_assoc, List.cons_append, List.cons_append,
        List.append_assoc]
      exact lexes_comma hlex

theorem toList_padRight (width : Nat) (s : String) :
    (padRight width s).toList = s.toList ++ List.replicate (width - s.length) ' ' := by
  simp [padRight]

/-- The blanks after a word that is filled up to the seventh column. -/
def gap (word : String) : Nat := 6 - word.length

theorem gap_mnemonic (m : Mnemonic) : gap m.name ≠ 0 := by
  obtain ⟨-, -, -, hlength⟩ := mnemonic_names m m.mem_all
  rw [gap]
  omega

theorem gap_directive (d : Directive) : gap d.name ≠ 0 := by
  cases d <;> decide

/-- A word filled up to the seventh column, and what belongs to it. -/
theorem toList_padded (word tail : String) :
    (padRight 6 word ++ tail).toList =
      word.toList ++ (List.replicate (gap word) ' ' ++ tail.toList) := by
  rw [String.toList_append, toList_padRight, gap, List.append_assoc]

section
variable {labelled : Bool}

/-- A statement is printed as what it is read from, but for blanks at its end. -/
def Prints (labelled : Bool) (s : Statement) : Prop :=
  ∃ text n, s.text.toList = text ++ List.replicate n ' ' ∧ SpellsOut labelled text s

theorem Prints.of_tail {s : Statement} {word tail : String} {kind : TokenKind}
    (ht : s.text = padRight 6 word ++ tail) (hw : IsWord word kind) (hgap : gap word ≠ 0)
    (h : FallsInto tail.toList (SpellsStatement labelled s kind)) : Prints labelled s := by
  refine ⟨_, 0, ?_, .of_tail hw hgap h⟩
  rw [ht, toList_padded, List.replicate_zero, List.append_nil]

theorem Prints.of_directive {d : Directive} {s : Statement} {tail : String}
    (ht : s.text = padRight 6 d.name ++ tail)
    (h : FallsInto tail.toList (SpellsDirective labelled d s)) : Prints labelled s :=
  .of_tail ht isWord_directive (gap_directive d) (h.mono fun _ => .directive)

theorem prints_instruction (m : Mnemonic) {operand : Operand} (ho : operand.Valid) :
    Prints labelled (.instruction m operand) := by
  by_cases hne : operand = .inherent
  · subst hne
    refine ⟨m.name.toList, gap m.name, ?_, .of_word (isWord_mnemonic m) (.instruction m .inherent)⟩
    simp [Statement.text, Statement.pieces, toList_padRight, gap]
  · have ht : (Statement.instruction m operand).text = padRight 6 m.name ++ operand.text := by
      cases operand with
      | inherent => exact (hne rfl).elim
      | _ => simp [Statement.text, Statement.pieces]
    exact .of_tail ht (isWord_mnemonic m) (gap_mnemonic m)
      ((ho.fallsInto hne).mono fun _ => .instruction m)

theorem prints_string {s : String} (hs : '"' ∉ s.toList) : Prints labelled (.string s) := by
  have ht : (Statement.string s).text = padRight 6 Directive.str.name ++ ("\"" ++ s ++ "\"") := by
    simp [Statement.text, Statement.pieces, Directive.name]
  refine .of_directive ht fun rest kinds hr hlex => ?_
  refine ⟨_, .string s, List.cons_ne_nil _ _, ?_⟩
  have htext := lexes_string hs hlex
  simpa using htext

theorem prints_bytes {values : List Expression} (hne : values ≠ []) (h : ∀ e ∈ values, e.Valid) :
    Prints labelled (.bytes values) := by
  obtain ⟨e, es, rfl⟩ := List.exists_cons_of_ne_nil hne
  obtain ⟨he, hes⟩ := List.forall_mem_cons.mp h
  have ht : (Statement.bytes (e :: es)).text = padRight 6 Directive.chr.name ++
      ",".intercalate ((e :: es).map Expression.text) := by
    simp [Statement.text, Statement.pieces, Directive.name]
  refine .of_directive ht fun rest kinds hr hlex => ?_
  obtain ⟨further, hfurther, hends, hlex⟩ := lexes_further hes hr hlex
  obtain ⟨ks, hks, -, hlex⟩ := he.fallsInto _ _ hends hlex
  rw [← List.append_assoc, ← List.append_assoc, ← toList_values] at hlex
  exact ⟨_, .bytes hks hfurther, List.append_ne_nil_of_left_ne_nil hks.ne_nil _, hlex⟩

theorem prints_finish {entry : Option Expression} (h : ∀ e ∈ entry, e.Valid) :
    Prints labelled (.finish entry) := by
  cases entry with
  | none =>
      refine ⟨Directive.finish.name.toList, 0, ?_, .of_word isWord_directive (.directive .finish)⟩
      simp [Statement.text, Statement.pieces, Directive.name]
  | some e =>
      refine .of_directive ?_ ((h e rfl).fallsInto.mono fun _ => .finishAt)
      simp [Statement.text, Statement.pieces, Directive.name]

theorem prints_of_valid {s : Statement} (h : s.Valid labelled) : Prints labelled s := by
  cases s with
  | instruction m operand => exact prints_instruction m h
  | reserve count =>
      refine .of_directive ?_ ((Expression.Valid.fallsInto h).mono fun _ => .reserve)
      simp [Statement.text, Statement.pieces, Directive.name]
  | string s => exact prints_string h
  | bytes values => exact prints_bytes h.1 h.2
  | finish entry => exact prints_finish h
  | define value =>
      refine .of_directive ?_ (h.2.fallsInto.mono fun _ => .define h.1)
      simp [Statement.text, Statement.pieces, Directive.name]

end

/-- A line with nothing but a statement: a definition behind its label, and any other behind a
blank. -/
def Statement.printedLine (label : Option String) (s : Statement) : String :=
  match s with
  | .define _ => label.getD "" ++ " " ++ s.text
  | _ => " " ++ s.text

/-- The blanks at the end of a printed statement. -/
theorem lexes_trailing (n : Nat) : EndsWord (List.replicate n ' ' ++ []) ∧
    ∃ ks, Lexes (List.replicate n ' ' ++ []) ks ∧ Trivia ks :=
  ⟨endsWord_replicate n rfl (by simp [EndsWord]),
    lexes_trivia n (by simp [EndsBlanks]) (List.forall_mem_nil _) .nil⟩

theorem Prints.readsAs {s : Statement} (h : Prints false s) :
    ReadsAs (" " ++ s.text) none (some s) := by
  obtain ⟨text, n, ht, hs⟩ := h
  obtain ⟨hends, kinds, hkinds, hk⟩ := lexes_trailing n
  refine hs.readsAs (n := 1) (by decide) hends hk hkinds ?_
  simp [ht]

theorem Prints.readsAs_labelled {s : Statement} {name : String} (h : Prints true s)
    (hname : IsName name) : ReadsAs (name ++ " " ++ s.text) (some name) (some s) := by
  obtain ⟨text, n, ht, hs⟩ := h
  obtain ⟨hends, kinds, hkinds, hk⟩ := lexes_trailing n
  refine hs.readsAs_labelled hname (n := 1) (by decide) hends hk hkinds ?_
  simp [ht]

theorem readsAs_printedLine {label : Option String} {s : Statement} (hl : ∀ name ∈ label, IsName name)
    (hs : s.Valid label.isSome) :
    ∃ label', ReadsAs (s.printedLine label) label' (some s) := by
  cases s with
  | define value =>
      obtain ⟨name, rfl⟩ := Option.isSome_iff_exists.mp hs.1
      exact ⟨some name, (prints_of_valid hs).readsAs_labelled (hl name rfl)⟩
  | _ => exact ⟨none, Prints.readsAs (prints_of_valid hs)⟩

/-- Whatever line a statement was read from, the line that it is printed on is read with the same
statement. -/
theorem Line.parse_printedLine {number : Nat} {source : String} {line : Line} {s : Statement}
    (h : Line.parse number source = .ok line) (hs : line.statement = some s) (again : Nat) :
    ∃ line', Line.parse again (s.printedLine line.label) = .ok line' ∧ line'.statement = some s := by
  obtain ⟨hlabel, hvalid⟩ := Line.valid_of_parse h
  obtain ⟨label, hreads⟩ := readsAs_printedLine hlabel (hvalid s hs)
  obtain ⟨line', hparse, -, -, hstatement, -⟩ := hreads again
  exact ⟨line', hparse, hstatement⟩

/-- A name with a distance in binary, behind a label with a colon. -/
theorem Line.parses_printed_distance :
    ∃ line, Line.parse 3 "far: EQU base-%1010 ; low" = .ok line ∧
      line.statement = some (.define (.symbol "base" (-10))) ∧
      ∃ line', Line.parse 1 "far EQU   base-10" = .ok line' ∧
        line'.statement = some (.define (.symbol "base" (-10))) := by
  let line : Line :=
    { number := 3, label := some "far", statement := some (.define (.symbol "base" (-10)))
      comment := some " low", source := "far: EQU base-%1010 ; low" }
  have hparse : Line.parse 3 "far: EQU base-%1010 ; low" = .ok line := by decide +kernel
  have hprinted : (Statement.define (.symbol "base" (-10))).printedLine line.label =
      "far EQU   base-10" := by decide +kernel
  have hagain := Line.parse_printedLine hparse rfl 1
  rw [hprinted] at hagain
  exact ⟨line, hparse, rfl, hagain⟩

end Source

end B33
