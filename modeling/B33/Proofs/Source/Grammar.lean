import B33.Source.Line
import B33.Proofs.Instruction
import B33.Proofs.Source.Lexer

/-!
# Parsing by kinds of tokens

On a line without errors the parser looks at nothing but the kinds of the tokens. So what it makes of
a line is said by the kinds it is given, the answer, and the kinds it leaves, and such statements are
put together along the parser's own sequences.
-/
namespace B33.Source

variable {α β : Type}

/-- On tokens of the first kinds a parser answers with `a` and leaves tokens of the last kinds. -/
def Parses (p : Parser α) (before : List TokenKind) (a : α) (after : List TokenKind) : Prop :=
  ∀ ts : Cursor, ts.map (·.kind) = before → ∃ ts', p ts = .ok (a, ts') ∧ ts'.map (·.kind) = after

namespace Parses

theorem answers {p : Parser α} {ts : Cursor} {a : α} {before after : List TokenKind}
    (h : Parses p before a after) (hts : ts.map (·.kind) = before) : ∃ ts', p ts = .ok (a, ts') :=
  (h ts hts).imp fun _ => And.left

variable {p : Parser α} {f : α → Parser β} {a : α} {b : β} {k : TokenKind}
  {ks before middle after : List TokenKind}

theorem bind (hp : Parses p before a middle) (hf : Parses (f a) middle b after) :
    Parses (p >>= f) before b after := by
  intro ts hts
  obtain ⟨ts₁, h₁, hts₁⟩ := hp ts hts
  obtain ⟨ts₂, h₂, hts₂⟩ := hf ts₁ hts₁
  refine ⟨ts₂, ?_, hts₂⟩
  rw [state_bind_apply, h₁]
  exact h₂

theorem pure (a : α) (ks : List TokenKind) : Parses (Pure.pure a : Parser α) ks a ks :=
  fun ts hts => ⟨ts, rfl, hts⟩

theorem lift (a : α) (ks : List TokenKind) :
    Parses (liftM (Except.ok a : Except Cause α) : Parser α) ks a ks := fun ts hts => ⟨ts, rfl, hts⟩

theorem get {f : Cursor → Parser β}
    (h : ∀ ts : Cursor, ts.map (·.kind) = before → Parses (f ts) before b after) :
    Parses (MonadState.get >>= f) before b after := fun ts hts => h ts hts ts hts

theorem next {f : Option Token → Parser β}
    (h : ∀ t : Token, t.kind = k → Parses (f (some t)) ks b after) :
    Parses (Parser.next? >>= f) (k :: ks) b after := by
  intro ts hts
  obtain ⟨t, ts', rfl, ht, hts'⟩ := List.map_eq_cons_iff.mp hts
  exact h t ht ts' hts'

theorem skipBlanks (ks : List TokenKind) :
    Parses Parser.skipBlanks ks () (ks.dropWhile (· == .blanks)) := by
  intro ts hts
  refine ⟨ts.skipBlanks, rfl, ?_⟩
  rw [← hts, List.dropWhile_map]
  rfl

theorem eat (k : TokenKind) (ks : List TokenKind) : Parses (Parser.eat k) (k :: ks) true ks := by
  intro ts hts
  obtain ⟨t, ts', rfl, ht, hts'⟩ := List.map_eq_cons_iff.mp hts
  refine ⟨ts', ?_, hts'⟩
  simp [Parser.eat, Cursor.eat?, ht, modifyGet, MonadStateOf.modifyGet, StateT.modifyGet, Pure.pure,
    Except.pure]

theorem eat_other (h : ks.head? ≠ some k) : Parses (Parser.eat k) ks false ks := by
  intro ts hts
  refine ⟨ts, ?_, hts⟩
  cases ts with
  | nil => rfl
  | cons t ts =>
      subst hts
      have ht : t.kind ≠ k := fun ht => h (by rw [← ht]; rfl)
      simp [Parser.eat, Cursor.eat?, ht, modifyGet, MonadStateOf.modifyGet, StateT.modifyGet,
        Pure.pure, Except.pure]

end Parses

theorem kind?_of_map {ts : Cursor} {ks : List TokenKind} (h : ts.map (·.kind) = ks) :
    ts.kind? = ks.head? := by
  rw [← h, List.head?_map]
  rfl

/-- Whether nothing in a rest of a line plays a part in the grammar. -/
def Trivia (ks : List TokenKind) : Prop := ∀ k ∈ ks, k.isTrivia = true

theorem isDone_of_map {ts : Cursor} {ks : List TokenKind} (h : ts.map (·.kind) = ks) :
    ts.isDone = ks.all TokenKind.isTrivia := by
  rw [← h, List.all_map]
  rfl

theorem Trivia.dropWhile {ks : List TokenKind} (h : Trivia ks) (p : TokenKind → Bool) :
    Trivia (ks.dropWhile p) := fun k hk => h k ((List.dropWhile_sublist p).subset hk)

theorem Trivia.head?_ne {ks : List TokenKind} {k : TokenKind} (h : Trivia ks)
    (hk : k.isTrivia = false) : ks.head? ≠ some k := by
  intro hhead
  rw [h k (List.mem_of_mem_head? hhead)] at hk
  cases hk

theorem dropWhile_of_head?_ne {k : TokenKind} {ks : List TokenKind} (h : ks.head? ≠ some k) :
    ks.dropWhile (· == k) = ks := by
  cases ks with
  | nil => rfl
  | cons first ks =>
      have hfirst : (first == k) = false := by simpa using h
      rw [List.dropWhile_cons, hfirst]
      rfl

theorem takeWhile_of_head?_ne {k : TokenKind} {ks : List TokenKind} (h : ks.head? ≠ some k) :
    ks.takeWhile (· == k) = [] := by
  have hall := List.takeWhile_append_dropWhile (p := (· == k)) (l := ks)
  rwa [dropWhile_of_head?_ne h, List.append_left_eq_self] at hall

/-- Whether a rest of a line cannot go on with a name. -/
def EndsExpression (ks : List TokenKind) : Prop := ks.head? ≠ some .plus ∧ ks.head? ≠ some .minus

theorem Trivia.endsExpression {ks : List TokenKind} (h : Trivia ks) : EndsExpression ks :=
  ⟨h.head?_ne rfl, h.head?_ne rfl⟩

/-- The tokens of a number, or of a name with a distance. -/
inductive Spells : Expression → List TokenKind → Prop
  | number (radix : Radix) (n : Nat) : Spells (.number n) [.number radix n]
  | negative (radix : Radix) (n : Nat) : Spells (.number (-n)) [.minus, .number radix n]
  | name (name : String) : Spells (.symbol name 0) [.label name]
  | after (name : String) (radix : Radix) (n : Nat) :
      Spells (.symbol name n) [.label name, .plus, .number radix n]
  | before (name : String) (radix : Radix) (n : Nat) :
      Spells (.symbol name (-n)) [.label name, .minus, .number radix n]

/-- The tokens that an expression can begin with. -/
def TokenKind.StartsExpression : TokenKind → Prop
  | .number _ _ | .minus | .label _ => True
  | _ => False

theorem Spells.head {e : Expression} {ks : List TokenKind} (h : Spells e ks) :
    ∃ k more, ks = k :: more ∧ k.StartsExpression := by
  cases h
  all_goals exact ⟨_, _, rfl, trivial⟩

theorem TokenKind.StartsExpression.ne_blanks {k : TokenKind} (h : k.StartsExpression) :
    k ≠ .blanks := by
  rintro rfl
  exact h

theorem TokenKind.StartsExpression.isTrivia {k : TokenKind} (h : k.StartsExpression) :
    k.isTrivia = false := by
  cases k <;> first | rfl | exact h.elim

theorem Spells.ne_nil {e : Expression} {ks : List TokenKind} (h : Spells e ks) : ks ≠ [] := by
  obtain ⟨k, more, rfl, -⟩ := h.head
  exact List.cons_ne_nil k more

theorem Spells.head?_ne {e : Expression} {ks : List TokenKind} (h : Spells e ks) :
    ks.head? ≠ some .blanks := by
  obtain ⟨k, more, rfl, hk⟩ := h.head
  simpa using hk.ne_blanks

theorem Spells.dropWhile_blanks {e : Expression} {ks : List TokenKind} (h : Spells e ks)
    (rest : List TokenKind) : (ks ++ rest).dropWhile (· == .blanks) = ks ++ rest := by
  obtain ⟨k, more, rfl, hk⟩ := h.head
  exact Source.dropWhile_of_head?_ne (by simpa using hk.ne_blanks)

theorem parses_parseOffset {name : String} {sign : Int} {radix : Radix} {n : Nat}
    {rest : List TokenKind} :
    Parses (Expression.parseOffset name sign) (.number radix n :: rest)
      (.symbol name (sign * n)) rest := by
  unfold Expression.parseOffset
  refine .next fun t ht => ?_
  simp only [Option.bind_some, ht, TokenKind.number?]
  exact .pure _ _

theorem Spells.parses {e : Expression} {ks rest : List TokenKind} (h : Spells e ks)
    (hr : EndsExpression rest) : Parses Expression.parse (ks ++ rest) e rest := by
  unfold Expression.parse
  refine .bind (.skipBlanks _) ?_
  rw [h.dropWhile_blanks]
  cases h with
  | number radix n =>
      refine .bind (.eat_other (by simp)) (.next fun t ht => ?_)
      simp only [ht]
      exact .pure _ _
  | negative radix n =>
      refine .bind (.eat _ _) (.next fun t ht => ?_)
      simp only [ht]
      exact .pure _ _
  | name name =>
      refine .bind (.eat_other (by simp)) (.next fun t ht => ?_)
      simp only [ht]
      exact .bind (.eat_other hr.1) (.bind (.eat_other hr.2) (.pure _ _))
  | after name radix n =>
      refine .bind (.eat_other (by simp)) (.next fun t ht => ?_)
      simp only [ht]
      refine .bind (.eat _ _) ?_
      have hparse := @parses_parseOffset name 1 radix n rest
      rw [Int.one_mul] at hparse
      exact hparse
  | before name radix n =>
      refine .bind (.eat_other (by simp)) (.next fun t ht => ?_)
      simp only [ht]
      refine .bind (.eat_other (by simp)) (.bind (.eat _ _) ?_)
      have hparse := @parses_parseOffset name (-1) radix n rest
      rw [Int.neg_one_mul] at hparse
      exact hparse

/-- The tokens of an operand. -/
inductive SpellsOperand : Operand → List TokenKind → Prop
  | inherent : SpellsOperand .inherent []
  | immediate {e : Expression} {ks : List TokenKind} : Spells e ks →
      SpellsOperand (.immediate e) (.hash :: ks)
  | address {e : Expression} {ks : List TokenKind} : Spells e ks →
      SpellsOperand (.address e) ks
  | indexed {index : Register} {offset : Option Register} {step : IndexStep} {form : IndexForm}
      {minus plus : UInt8} : Operand.stepOfSigns minus plus = .ok step →
      IndexForm.ofParts index offset step = .ok form →
      SpellsOperand (.indexed form) ((offset.map TokenKind.register).toList ++ (.comma ::
        (List.replicate minus.toNat .minus ++ (.register index ::
          List.replicate plus.toNat .plus))))

theorem SpellsOperand.head?_ne {operand : Operand} {ks : List TokenKind}
    (h : SpellsOperand operand ks) : ks.head? ≠ some .blanks := by
  cases h with
  | inherent => simp
  | immediate => simp
  | address he => exact he.head?_ne
  | @indexed index offset => cases offset <;> simp

/-- Signs that come next are counted up to a kind that is no such sign, if a byte can count them. -/
theorem exists_countSigns? {sign : TokenKind} {ts : Cursor} {ks : List TokenKind} {n : Nat}
    (hts : ts.map (·.kind) = List.replicate n sign ++ ks) (hk : ks.head? ≠ some sign) :
    ∃ rest : Cursor, rest.map (·.kind) = ks ∧
      ts.countSigns? sign = if n < 256 then some (.ofNat n, rest) else none := by
  have hsigns : ∀ k ∈ List.replicate n sign, (k == sign) = true := by simp +contextual
  have hlength : (ts.takeWhile fun t => t.kind == sign).length = n := by
    have hmap : (ts.map (·.kind)).takeWhile (· == sign) =
        (ts.takeWhile fun t => t.kind == sign).map (·.kind) := List.takeWhile_map
    rw [hts, List.takeWhile_append_of_pos hsigns, takeWhile_of_head?_ne hk,
      List.append_nil] at hmap
    calc (ts.takeWhile fun t => t.kind == sign).length
        = ((ts.takeWhile fun t => t.kind == sign).map (·.kind)).length := List.length_map _ |>.symm
      _ = (List.replicate n sign).length := congrArg List.length hmap.symm
      _ = n := List.length_replicate
  refine ⟨ts.dropWhile fun t => t.kind == sign, ?_, ?_⟩
  · have hmap : (ts.map (·.kind)).dropWhile (· == sign) =
        (ts.dropWhile fun t => t.kind == sign).map (·.kind) := List.dropWhile_map
    rw [hts, List.dropWhile_append_of_pos hsigns, dropWhile_of_head?_ne hk] at hmap
    exact hmap.symm
  · rw [Cursor.countSigns?, hlength]

theorem Parses.countSigns {sign : TokenKind} {ks : List TokenKind} {n : Nat} (hn : n < 256)
    (hk : ks.head? ≠ some sign) :
    Parses (Parser.countSigns sign) (List.replicate n sign ++ ks) (.ofNat n) ks := by
  intro ts hts
  obtain ⟨rest, hrest, hcount⟩ := exists_countSigns? hts hk
  rw [if_pos hn] at hcount
  refine ⟨rest, ?_, hrest⟩
  rw [Parser.countSigns, hcount]

theorem parses_parseIndex {index : Register} {offset : Option Register} {step : IndexStep}
    {form : IndexForm} {minus plus : UInt8} {rest : List TokenKind} (hr : Trivia rest)
    (hstep : Operand.stepOfSigns minus plus = .ok step)
    (hform : IndexForm.ofParts index offset step = .ok form) :
    Parses (Operand.parseIndex offset) (List.replicate minus.toNat .minus ++
      (.register index :: (List.replicate plus.toNat .plus ++ rest))) (.indexed form) rest := by
  unfold Operand.parseIndex
  refine .bind (.skipBlanks _) ?_
  rw [dropWhile_of_head?_ne (by cases minus.toNat <;> simp [List.replicate_succ])]
  refine .bind (.countSigns minus.toNat_lt (by simp)) (.get fun ts hts => ?_)
  rw [kind?_of_map hts]
  refine .next fun t _ => .bind (.countSigns plus.toNat_lt (hr.head?_ne rfl)) ?_
  rw [UInt8.ofNat_toNat, UInt8.ofNat_toNat, hstep]
  refine .bind (.lift _ _) ?_
  rw [hform]
  exact .pure _ _

/-- Blanks before an operand do not count. -/
theorem SpellsOperand.parses {operand : Operand} {before ks rest : List TokenKind}
    (h : SpellsOperand operand ks) (hr : Trivia rest)
    (hb : before.dropWhile (· == .blanks) = ks ++ rest) :
    Parses Operand.parse before operand rest := by
  unfold Operand.parse
  refine .bind (.skipBlanks _) ?_
  rw [hb]
  refine .get fun ts hts => ?_
  rw [kind?_of_map hts]
  cases h with
  | inherent =>
      cases rest with
      | nil => exact .pure _ _
      | cons k rest =>
          have hk := hr k List.mem_cons_self
          cases k <;> first | exact .pure _ _ | cases hk
  | immediate he => exact .next fun t _ => .bind (he.parses hr.endsExpression) (.pure _ _)
  | address he =>
      have hparse := he.parses hr.endsExpression
      obtain ⟨k, more, rfl, hk⟩ := he.head
      cases k <;> first | exact .bind hparse (.pure _ _) | exact hk.elim
  | @indexed index offset step form minus plus hstep hform =>
      have hparse := parses_parseIndex hr hstep hform
      rw [List.append_assoc, List.cons_append, List.append_assoc, List.cons_append]
      cases offset with
      | none => exact .next fun t _ => hparse
      | some r => exact .next fun t _ => .bind (.eat _ _) hparse

/-- The tokens of values that each stand after a comma. -/
inductive SpellsFurther : List Expression → List TokenKind → Prop
  | nil : SpellsFurther [] []
  | cons {e : Expression} {es : List Expression} {ks further : List TokenKind} : Spells e ks →
      SpellsFurther es further → SpellsFurther (e :: es) (.comma :: (ks ++ further))

theorem SpellsFurther.endsExpression {es : List Expression} {ks rest : List TokenKind}
    (h : SpellsFurther es ks) (hr : Trivia rest) : EndsExpression (ks ++ rest) := by
  cases h with
  | nil => exact hr.endsExpression
  | cons => exact ⟨by simp, by simp⟩

theorem SpellsFurther.parses {es : List Expression} {ks rest : List TokenKind}
    (h : SpellsFurther es ks) (hr : Trivia rest) (found : List Expression) {bound : Nat}
    (hbound : ks.length ≤ bound) :
    ∃ after, Parses (Statement.parseValues found bound) (ks ++ rest) (found.reverse ++ es) after ∧
      Trivia after := by
  induction h generalizing found bound with
  | nil =>
      rw [List.append_nil]
      cases bound with
      | zero => exact ⟨rest, .pure _ _, hr⟩
      | succ bound =>
          refine ⟨_, .bind (.skipBlanks _) (.bind (.eat_other ?_) (.pure _ _)), hr.dropWhile _⟩
          exact (hr.dropWhile _).head?_ne rfl
  | @cons e es ks further he hfurther ih =>
      rw [List.length_cons, List.length_append] at hbound
      obtain ⟨bound, rfl⟩ := Nat.exists_eq_add_one_of_ne_zero (by omega : bound ≠ 0)
      have hless : further.length ≤ bound := by omega
      obtain ⟨after, hparses, hafter⟩ := ih (e :: found) hless
      rw [List.reverse_cons, List.append_assoc, List.singleton_append] at hparses
      refine ⟨after, .bind (.skipBlanks _) ?_, hafter⟩
      rw [List.cons_append, List.append_assoc, dropWhile_of_head?_ne (by simp)]
      exact .bind (.eat _ _) (.bind (he.parses (hfurther.endsExpression hr)) hparses)

/-- The tokens after the word of a directive. -/
inductive SpellsDirective (labelled : Bool) : Directive → Statement → List TokenKind → Prop
  | reserve {e : Expression} {ks : List TokenKind} : Spells e ks →
      SpellsDirective labelled .rmb (.reserve e) ks
  | string (s : String) : SpellsDirective labelled .str (.string s) [.text s]
  | bytes {e : Expression} {es : List Expression} {ks further : List TokenKind} : Spells e ks →
      SpellsFurther es further → SpellsDirective labelled .chr (.bytes (e :: es)) (ks ++ further)
  | finish : SpellsDirective labelled .finish (.finish none) []
  | finishAt {e : Expression} {ks : List TokenKind} : Spells e ks →
      SpellsDirective labelled .finish (.finish (some e)) ks
  | define {e : Expression} {ks : List TokenKind} : labelled = true → Spells e ks →
      SpellsDirective labelled .equ (.define e) ks

theorem SpellsDirective.parses {labelled : Bool} {d : Directive} {s : Statement}
    {before ks rest : List TokenKind} (h : SpellsDirective labelled d s ks) (hr : Trivia rest)
    (hb : before.dropWhile (· == .blanks) = ks ++ rest) :
    ∃ after, Parses (Statement.parseDirective labelled d) before s after ∧ Trivia after := by
  unfold Statement.parseDirective
  have skipped {p : Parser Statement} (h : ∃ after, Parses p (ks ++ rest) s after ∧ Trivia after) :
      ∃ after, Parses (Parser.skipBlanks >>= fun _ => p) before s after ∧ Trivia after := by
    obtain ⟨after, hp, hafter⟩ := h
    refine ⟨after, .bind (.skipBlanks _) ?_, hafter⟩
    rw [hb]
    exact hp
  refine skipped ?_
  cases h with
  | reserve he => exact ⟨rest, .bind (he.parses hr.endsExpression) (.pure _ _), hr⟩
  | string s =>
      refine ⟨rest, .next fun t ht => ?_, hr⟩
      simp only [Option.map_some, ht]
      exact .pure _ _
  | @bytes e es ks further he hfurther =>
      have hlength : further.length ≤ (further ++ rest).length := by simp
      obtain ⟨after, hparses, hafter⟩ := hfurther.parses hr [e] hlength
      refine ⟨after, ?_, hafter⟩
      rw [List.append_assoc]
      refine .bind (he.parses (hfurther.endsExpression hr)) (.get fun ts hts => ?_)
      rw [← hts, List.length_map] at hparses
      rw [← hts]
      exact .bind hparses (.pure _ _)
  | finish =>
      refine ⟨rest, .get fun ts hts => ?_, hr⟩
      have hdone : ts.isDone = true := by
        rw [isDone_of_map hts]
        exact List.all_eq_true.mpr hr
      rw [hdone]
      exact .pure _ _
  | finishAt he =>
      refine ⟨rest, .get fun ts hts => ?_, hr⟩
      have hdone : ts.isDone = false := by
        obtain ⟨k, more, rfl, hk⟩ := he.head
        rw [isDone_of_map hts, List.cons_append, List.all_cons, hk.isTrivia, Bool.false_and]
      rw [hdone]
      exact .bind (he.parses hr.endsExpression) (.pure _ _)
  | define hl he =>
      subst hl
      exact ⟨rest, .bind (he.parses hr.endsExpression) (.pure _ _), hr⟩

/-- The word of a statement, and the tokens after it. -/
inductive SpellsStatement (labelled : Bool) : Statement → TokenKind → List TokenKind → Prop
  | instruction (m : Mnemonic) {operand : Operand} {ks : List TokenKind} :
      SpellsOperand operand ks →
      SpellsStatement labelled (.instruction m operand) (.mnemonic m) ks
  | directive {d : Directive} {s : Statement} {ks : List TokenKind} :
      SpellsDirective labelled d s ks → SpellsStatement labelled s (.directive d) ks

/-- Blanks after the word do not count. -/
theorem SpellsStatement.parses {labelled : Bool} {s : Statement} {word : TokenKind}
    {before ks rest : List TokenKind} (h : SpellsStatement labelled s word ks) (hr : Trivia rest)
    (hb : before.dropWhile (· == .blanks) = ks ++ rest) :
    ∃ after, Parses (Statement.parse labelled) (word :: before) (some s) after ∧ Trivia after := by
  unfold Statement.parse
  cases h with
  | instruction m ho =>
      refine ⟨rest, .get fun ts hts => ?_, hr⟩
      rw [kind?_of_map hts]
      exact .next fun t _ => .bind (ho.parses hr hb) (.pure _ _)
  | directive hd =>
      obtain ⟨after, hparses, hafter⟩ := hd.parses hr hb
      refine ⟨after, .get fun ts hts => ?_, hafter⟩
      rw [kind?_of_map hts]
      exact .next fun t _ => .bind hparses (.pure _ _)

theorem SpellsDirective.head?_ne {labelled : Bool} {d : Directive} {s : Statement}
    {ks : List TokenKind} (h : SpellsDirective labelled d s ks) : ks.head? ≠ some .blanks := by
  cases h with
  | reserve he => exact he.head?_ne
  | string s => simp
  | bytes he _ =>
      obtain ⟨k, more, rfl, hk⟩ := he.head
      simpa using hk.ne_blanks
  | finish => simp
  | finishAt he => exact he.head?_ne
  | define _ he => exact he.head?_ne

theorem SpellsStatement.head?_ne {labelled : Bool} {s : Statement} {word : TokenKind}
    {ks : List TokenKind} (h : SpellsStatement labelled s word ks) : ks.head? ≠ some .blanks := by
  cases h with
  | instruction m ho => exact ho.head?_ne
  | directive hd => exact hd.head?_ne

theorem SpellsStatement.word_ne {labelled : Bool} {s : Statement} {word : TokenKind}
    {ks : List TokenKind} (h : SpellsStatement labelled s word ks) :
    word ≠ .blanks ∧ ∀ name, word ≠ .label name := by
  cases h <;> simp

theorem parses_nothing {labelled : Bool} {ks : List TokenKind} (hk : Trivia ks) :
    Parses (Statement.parse labelled) ks none ks := by
  unfold Statement.parse
  refine .get fun ts hts => ?_
  rw [kind?_of_map hts]
  cases ks with
  | nil => exact .pure _ _
  | cons k ks =>
      have hk := hk k List.mem_cons_self
      cases k <;> first | exact .pure _ _ | cases hk

/-- A text is read as a line with this label and this statement, whatever its number. -/
def ReadsAs (text : String) (label : Option String) (statement : Option Statement) : Prop :=
  ∀ number, ∃ line, Line.parse number text = .ok line ∧ line.number = number ∧
    line.label = label ∧ line.statement = statement ∧ line.source = text

/-- What a line says behind its semicolon. -/
def commentText : TokenKind → Option String
  | .comment s => some s
  | _ => none

theorem comment?_of_map {ts : Cursor} {ks : List TokenKind} (h : ts.map (·.kind) = ks) :
    ts.comment? = ks.findSome? commentText := by
  rw [← h, List.findSome?_map]
  rfl

/-- A line whose label was read. -/
theorem parseParts_of_parseLabel {label : Option String} {statement : Option Statement}
    {ts ts₁ : Cursor} {middle rest : List TokenKind}
    (hl : Line.parseLabel ts = .ok (label, ts₁)) (hts : ts₁.map (·.kind) = middle)
    (hs : Parses (Statement.parse label.isSome) (middle.dropWhile (· == .blanks)) statement rest)
    (hr : Trivia rest) :
    ∃ comment ts₂, Line.parseParts ts = .ok ((label, statement, comment), ts₂) := by
  unfold Line.parseParts
  rw [state_bind_apply, hl, ok_bind]
  have hrest (statement : Option Statement) : Parses (do
      Parser.skipBlanks
      if (← get).isDone then return (label, statement, (← get).comment?) else Parser.unexpected)
      rest (label, statement, (rest.dropWhile (· == .blanks)).findSome? commentText)
      (rest.dropWhile (· == .blanks)) := by
    refine .bind (.skipBlanks _) (.get fun ts hts => ?_)
    rw [isDone_of_map hts, if_pos (List.all_eq_true.mpr (hr.dropWhile _))]
    refine .get fun ts hts => ?_
    rw [comment?_of_map hts]
    exact .pure _ _
  exact ⟨_, (Parses.bind (.skipBlanks _) (.bind hs (hrest _))).answers hts⟩

theorem parses_no_label {before ks : List TokenKind} {k : TokenKind}
    (hb : before.dropWhile (· == .blanks) = k :: ks) (hk : ∀ name, k ≠ .label name) :
    Parses Line.parseLabel before none (k :: ks) := by
  unfold Line.parseLabel
  refine .get fun ts hts => .bind (.skipBlanks _) ?_
  rw [hb]
  refine .get fun ts hts => ?_
  obtain ⟨t, ts', rfl, rfl, -⟩ := List.map_eq_cons_iff.mp hts
  dsimp only
  split
  · next name hname => exact (hk name hname).elim
  · exact .pure _ _

theorem parse_of_parts {text : String} {ts rest : Cursor} {label comment : Option String}
    {statement : Option Statement} {number : Nat} (hts : tokenizeLine number text = .ok ts)
    (hparts : Line.parseParts ts = .ok ((label, statement, comment), rest)) :
    Line.parse number text = .ok { number, label, statement, comment, source := text } := by
  have hrun : Line.parseParts.run ts = .ok ((label, statement, comment), rest) := hparts
  rw [Line.parse, hts, ok_bind, hrun]
  rfl

/-- A line is read if its label is read from its tokens, of which the first begins in the first
column. -/
theorem readsAs_of_parseLabel {text : String} {label : Option String}
    {statement : Option Statement} {before middle rest : List TokenKind}
    (h : Lexes text.toList before)
    (hl : ∀ ts : Cursor, ts.map (·.kind) = before → (∀ t ∈ ts.head?, t.column = 0) →
      ∃ ts₁, Line.parseLabel ts = .ok (label, ts₁) ∧ ts₁.map (·.kind) = middle)
    (hs : Parses (Statement.parse label.isSome) (middle.dropWhile (· == .blanks)) statement rest)
    (hr : Trivia rest) : ReadsAs text label statement := by
  intro number
  obtain ⟨ts, hts, hkinds, hcolumn⟩ := h.tokenizeLine_eq number
  obtain ⟨ts₁, hlabel, hmiddle⟩ := hl ts hkinds hcolumn
  obtain ⟨comment, ts₂, hparts⟩ := parseParts_of_parseLabel hlabel hmiddle hs hr
  exact ⟨_, parse_of_parts hts hparts, rfl, rfl, rfl, rfl⟩

/-- A line without a label. -/
theorem readsAs_statement {text : String} {before ks rest : List TokenKind} {k : TokenKind}
    {statement : Option Statement} (h : Lexes text.toList before)
    (hb : before.dropWhile (· == .blanks) = k :: ks) (hk : ∀ name, k ≠ .label name)
    (hs : Parses (Statement.parse false) (k :: ks) statement rest) (hr : Trivia rest) :
    ReadsAs text none statement := by
  have hblanks : (k :: ks).dropWhile (· == .blanks) = k :: ks := by
    refine dropWhile_of_head?_ne fun hk => ?_
    have hnot := List.head?_dropWhile_not (· == TokenKind.blanks) before
    rw [hb, hk] at hnot
    simp at hnot
  exact readsAs_of_parseLabel h (fun ts hts _ => parses_no_label hb hk ts hts) (by rwa [hblanks]) hr

/-- A line with a label, which begins in the first column and has no colon. -/
theorem readsAs_labelled {name text : String} {cs : List Char} {ks rest : List TokenKind}
    {statement : Option Statement} (hname : IsName name) (ht : text.toList = name.toList ++ cs)
    (hc : EndsWord cs) (h : Lexes cs ks) (hcolon : ks.head? ≠ some .colon)
    (hs : Parses (Statement.parse true) (ks.dropWhile (· == .blanks)) statement rest)
    (hr : Trivia rest) : ReadsAs text (some name) statement := by
  have hlex := hname.lexes hc h
  rw [← ht] at hlex
  refine readsAs_of_parseLabel hlex (fun ts hts hcolumn => ?_) hs hr
  obtain ⟨t, ts₁, rfl, hkind, hmore⟩ := List.map_eq_cons_iff.mp hts
  obtain ⟨kind, text, line, column⟩ := t
  obtain rfl : kind = .label name := hkind
  obtain rfl : column = 0 := hcolumn _ rfl
  obtain ⟨ts₂, heat, hleft⟩ := Parses.eat_other hcolon ts₁ hmore
  refine ⟨ts₂, ?_, hleft⟩
  show (Parser.eat .colon >>= fun _ => pure (some name)) ts₁ = _
  rw [state_bind_apply, heat]
  rfl

/-- A line with nothing but a label, which begins in the first column. -/
theorem readsAs_label {name : String} (h : IsName name) : ReadsAs name (some name) none :=
  readsAs_labelled h (List.append_nil _).symm (by simp [EndsWord]) .nil (by simp)
    (parses_nothing (by simp [Trivia])) (by simp [Trivia])

end B33.Source
