import B33.Proofs.Source.Grammar

/-!
# Spelling statements

The pieces that statements are written in, and the tokens they fall apart into: words, index forms,
expressions, and operands.
-/
namespace B33

namespace IndexForm

/-- The index register of a form with its signs. -/
def steppedText (form : IndexForm) : List Char :=
  match form.step with
  | .none => form.index.name.toList
  | .inc n => form.index.name.toList ++ List.replicate n.toNat '+'
  | .dec n => List.replicate n.toNat '-' ++ form.index.name.toList

theorem toList_text (form : IndexForm) :
    form.text.toList =
      ((form.offset.map Register.name).getD "").toList ++ ',' :: steppedText form := by
  rw [IndexForm.text, steppedText]
  cases form.step with
  | none => simp
  | inc n => simp [IndexForm.signs]
  | dec n => simp [IndexForm.signs]

end IndexForm

namespace Source

/-- The names of mnemonics are words of fewer than six characters. -/
theorem mnemonic_names : ∀ m ∈ Mnemonic.all, m.name.toList.head?.any (StartsWord ·) = true ∧
    m.name.toList.tail.all isWordChar = true ∧ TokenKind.ofWord m.name = .mnemonic m ∧
    m.name.length < 6 := by
  decide +kernel

theorem isWord_mnemonic (m : Mnemonic) : IsWord m.name (.mnemonic m) := by
  obtain ⟨hstart, htail, hword, -⟩ := mnemonic_names m m.mem_all
  exact .of_tail hstart htail hword

theorem isWord_directive {d : Directive} : IsWord d.name (.directive d) := by
  have hword : d.name.toList.head?.any (StartsWord ·) = true ∧
      d.name.toList.tail.all isWordChar = true ∧ TokenKind.ofWord d.name = .directive d := by
    cases d <;> decide +kernel
  exact .of_tail hword.1 hword.2.1 hword.2.2

theorem isWord_register (r : Register) : IsWord r.name (.register r) := by
  have hword : r.name.toList.head?.any (StartsWord ·) = true ∧
      r.name.toList.tail.all isWordChar = true ∧ TokenKind.ofWord r.name = .register r := by
    cases r <;> decide +kernel
  exact .of_tail hword.1 hword.2.1 hword.2.2

theorem endsWord_cons {c : Char} (hc : isWordChar c = false) (cs : List Char) :
    EndsWord (c :: cs) := by
  intro x hx
  cases hx
  exact hc

theorem endsWord_replicate {c : Char} {rest : List Char} (n : Nat) (hc : isWordChar c = false)
    (hr : EndsWord rest) : EndsWord (List.replicate n c ++ rest) := by
  cases n with
  | zero => exact hr
  | succ n => exact endsWord_cons hc _

theorem endsWord_blanks {n : Nat} (hn : n ≠ 0) (cs : List Char) :
    EndsWord (List.replicate n ' ' ++ cs) := by
  obtain ⟨m, rfl⟩ := Nat.exists_eq_succ_of_ne_zero hn
  exact endsWord_cons rfl _

/-- Characters that fall apart into tokens as `P` says, whatever stands behind them, if no word goes on
there. -/
def FallsInto (text : List Char) (P : List TokenKind → Prop) : Prop :=
  ∀ (rest : List Char) (kinds : List TokenKind), EndsWord rest → Lexes rest kinds →
    ∃ ks, P ks ∧ ks ≠ [] ∧ Lexes (text ++ rest) (ks ++ kinds)

namespace FallsInto

variable {text : List Char} {P Q : List TokenKind → Prop}

theorem mono (h : FallsInto text P) (hP : ∀ ks, P ks → Q ks) : FallsInto text Q := by
  intro rest kinds hr hlex
  obtain ⟨ks, hks, hne, hlex⟩ := h rest kinds hr hlex
  exact ⟨ks, hP ks hks, hne, hlex⟩

theorem ne_nil (h : FallsInto text P) : text ≠ [] := by
  rintro rfl
  obtain ⟨ks, -, hne, hlex⟩ := h [] [] (by simp [EndsWord]) .nil
  rw [List.append_nil, List.append_nil] at hlex
  exact hne hlex.eq_nil

end FallsInto

section
variable {rest : List Char} {kinds : List TokenKind}

theorem fallsInto_hex {width n : Nat} (hn : n < 0x100000000) :
    FallsInto ('$' :: (Numeral.hex width n).toList) (Spells (.number n)) :=
  fun _ _ hr hlex => ⟨_, .number .hexadecimal n, List.cons_ne_nil _ _, lexes_hex hn hr hlex⟩

theorem fallsInto_name {name : String} (h : IsName name) :
    FallsInto name.toList (Spells (.symbol name 0)) :=
  fun _ _ hr hlex => ⟨_, .name name, List.cons_ne_nil _ _, h.lexes hr hlex⟩

theorem FallsInto.immediate {text : List Char} {e : Expression} (h : FallsInto text (Spells e)) :
    FallsInto ('#' :: text) (SpellsOperand (.immediate e)) := by
  intro rest kinds hr hlex
  obtain ⟨ks, hks, -, hlex⟩ := h rest kinds hr hlex
  exact ⟨_, .immediate hks, List.cons_ne_nil _ _, lexes_hash hlex⟩

theorem lexes_pluses (n : Nat) (h : Lexes rest kinds) :
    Lexes (List.replicate n '+' ++ rest) (List.replicate n .plus ++ kinds) := by
  induction n with
  | zero => exact h
  | succ n ih => exact lexes_plus ih

theorem lexes_minuses (n : Nat) (h : Lexes rest kinds) :
    Lexes (List.replicate n '-' ++ rest) (List.replicate n .minus ++ kinds) := by
  induction n with
  | zero => exact h
  | succ n ih => exact lexes_minus ih

theorem lexes_steppedText {form : IndexForm} (hform : form.Legal) (hr : EndsWord rest)
    (h : Lexes rest kinds) :
    ∃ minus plus, Operand.stepOfSigns minus plus = .ok form.step ∧
      Lexes (form.steppedText ++ rest) (List.replicate minus.toNat .minus ++
        (.register form.index :: (List.replicate plus.toNat .plus ++ kinds))) := by
  have hamount := hform.parts.2.2
  unfold IndexForm.steppedText
  cases hstep : form.step with
  | none => exact ⟨0, 0, rfl, (isWord_register _).lexes hr h⟩
  | inc n =>
      have hn : n ≠ 0 := by
        rcases hamount n (by rw [hstep]; rfl) with rfl | rfl <;> decide
      refine ⟨0, n, ?_, ?_⟩
      · simp [Operand.stepOfSigns, hn]
      · dsimp only
        rw [List.append_assoc]
        exact (isWord_register _).lexes (endsWord_replicate _ rfl hr) (lexes_pluses _ h)
  | dec n =>
      have hn : n ≠ 0 := by
        rcases hamount n (by rw [hstep]; rfl) with rfl | rfl <;> decide
      refine ⟨n, 0, ?_, ?_⟩
      · simp [Operand.stepOfSigns, hn]
      · dsimp only
        rw [List.append_assoc]
        exact lexes_minuses _ ((isWord_register _).lexes hr h)

theorem fallsInto_form {form : IndexForm} (hform : form.Legal) :
    FallsInto form.text.toList (SpellsOperand (.indexed form)) := by
  intro rest kinds hr hlex
  obtain ⟨minus, plus, hstep, hlex⟩ := lexes_steppedText hform hr hlex
  refine ⟨_, .indexed hstep hform.ofParts_eq, by simp, ?_⟩
  rw [form.toList_text, List.append_assoc, List.append_assoc, List.cons_append, List.cons_append,
    List.append_assoc, List.cons_append]
  cases form.offset with
  | none => exact lexes_comma hlex
  | some r => exact (isWord_register r).lexes (endsWord_cons rfl _) (lexes_comma hlex)

/-- Blanks before what plays no part play none. -/
theorem lexes_trivia (n : Nat) (hr : EndsBlanks rest) (hk : Trivia kinds) (h : Lexes rest kinds) :
    ∃ ks, Lexes (List.replicate n ' ' ++ rest) ks ∧ Trivia ks := by
  by_cases hn : n = 0
  · subst hn
    exact ⟨kinds, h, hk⟩
  · exact ⟨_, lexes_blanks hn hr h, List.forall_mem_cons.mpr ⟨rfl, hk⟩⟩

end

/-- Characters that are read as a statement when nothing that counts follows: its word, blanks, and
what belongs to the word. -/
def SpellsOut (labelled : Bool) (text : List Char) (s : Statement) : Prop :=
  ∀ (rest : List Char) (kinds : List TokenKind), EndsWord rest → Trivia kinds → Lexes rest kinds →
    ∃ word before ks after, Lexes (text ++ rest) (word :: before) ∧
      SpellsStatement labelled s word ks ∧ before.dropWhile (· == .blanks) = ks ++ after ∧
      Trivia after

namespace SpellsOut

variable {labelled : Bool} {s : Statement} {word name : String} {kind : TokenKind}
  {text tail rest : List Char} {kinds : List TokenKind} {n : Nat}

theorem of_word (hw : IsWord word kind) (hs : SpellsStatement labelled s kind []) :
    SpellsOut labelled word.toList s := by
  intro rest kinds hr hk hlex
  exact ⟨kind, kinds, [], _, hw.lexes hr hlex, hs, rfl, hk.dropWhile _⟩

theorem of_tail (hw : IsWord word kind) (hn : n ≠ 0)
    (h : FallsInto tail (SpellsStatement labelled s kind)) :
    SpellsOut labelled (word.toList ++ (List.replicate n ' ' ++ tail)) s := by
  intro rest kinds hr hk hlex
  obtain ⟨ks, hs, hne, htail⟩ := h rest kinds hr hlex
  have hhead : (ks ++ kinds).head? ≠ some .blanks := by
    rw [List.head?_append_of_ne_nil _ hne]
    exact hs.head?_ne
  have hends : EndsBlanks (tail ++ rest) := by
    refine htail.endsBlanks ?_
    rintro k hk rfl
    exact hhead hk
  have hblanks := lexes_blanks hn hends htail
  have hall := hw.lexes (endsWord_blanks hn _) hblanks
  rw [← List.append_assoc (List.replicate n ' '), ← List.append_assoc] at hall
  refine ⟨kind, _, ks, kinds, hall, hs, ?_, hk⟩
  rw [List.dropWhile_cons_of_pos (by rfl), dropWhile_of_head?_ne hhead]

/-- What a line goes on with after blanks. -/
theorem lexes (h : SpellsOut labelled text s) (hn : n ≠ 0) (hr : EndsWord rest)
    (hk : Trivia kinds) (hlex : Lexes rest kinds) :
    ∃ word before after,
      Lexes (List.replicate n ' ' ++ (text ++ rest)) (.blanks :: word :: before) ∧
      (TokenKind.blanks :: word :: before).dropWhile (· == .blanks) = word :: before ∧
      (∀ name, word ≠ .label name) ∧
      Parses (Statement.parse labelled) (word :: before) (some s) after ∧ Trivia after := by
  obtain ⟨word, before, ks, rest', hall, hs, hbefore, hrest'⟩ := h rest kinds hr hk hlex
  obtain ⟨after, hparses, hafter⟩ := hs.parses hrest' hbefore
  obtain ⟨hblanks, hlabel⟩ := hs.word_ne
  have hends := hall.endsBlanks (by simpa using hblanks)
  refine ⟨word, before, after, lexes_blanks hn hends hall, ?_, hlabel, hparses, hafter⟩
  rw [List.dropWhile_cons_of_pos (by rfl), dropWhile_of_head?_ne (by simpa using hblanks)]

/-- A statement behind blanks, with a rest behind it that plays no part. -/
theorem readsAs {body : String} (h : SpellsOut false text s) (hn : n ≠ 0) (hr : EndsWord rest)
    (hk : Trivia kinds) (hlex : Lexes rest kinds)
    (hb : body.toList = List.replicate n ' ' ++ (text ++ rest)) : ReadsAs body none (some s) := by
  obtain ⟨word, before, after, hall, hdrop, hlabel, hparses, hafter⟩ := h.lexes hn hr hk hlex
  rw [← hb] at hall
  exact readsAs_statement hall hdrop hlabel hparses hafter

/-- A statement behind a label. -/
theorem readsAs_labelled {body : String} (h : SpellsOut true text s) (hname : IsName name)
    (hn : n ≠ 0) (hr : EndsWord rest) (hk : Trivia kinds) (hlex : Lexes rest kinds)
    (hb : body.toList = name.toList ++ (List.replicate n ' ' ++ (text ++ rest))) :
    ReadsAs body (some name) (some s) := by
  obtain ⟨word, before, after, hall, hdrop, -, hparses, hafter⟩ := h.lexes hn hr hk hlex
  refine Source.readsAs_labelled hname hb (endsWord_blanks hn _) hall (by simp) ?_ hafter
  rw [hdrop]
  exact hparses

/-- A statement behind blanks, with a comment behind it. -/
theorem readsAs_comment {body : String} {k : Nat} {cs : List Char} (h : SpellsOut false text s)
    (hn : n ≠ 0)
    (hb : body.toList = List.replicate n ' ' ++ (text ++ (List.replicate k ' ' ++ ';' :: cs))) :
    ReadsAs body none (some s) := by
  have hcomment := lexes_comment cs
  obtain ⟨kinds, hkinds, htrivia⟩ := lexes_trivia k (hcomment.endsBlanks (by simp))
    (by simp [Trivia, TokenKind.isTrivia]) hcomment
  exact h.readsAs hn (endsWord_replicate k rfl (endsWord_cons rfl cs)) htrivia hkinds hb

end SpellsOut

end Source

end B33
