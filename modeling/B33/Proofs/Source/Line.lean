import B33.Source.Line
import B33.Proofs.Except
import B33.Proofs.Instruction
import B33.Proofs.Source.Lexer

/-!
# What a line that was read is like

What a parser answers was put together from tokens of a line. So a name in it is a label's, a number
takes at most four bytes, a text has no quote in it, and an index form is legal. Such statements are
put together along the parser's own sequences.
-/
namespace B33

namespace Source

variable {α β : Type}

/-- On tokens of a line the parser answers with what meets `Q`, and leaves tokens of a line. -/
def Yields (p : Parser α) (Q : α → Prop) : Prop :=
  ∀ ts r rest, (∀ t ∈ ts, t.kind.Valid) → p ts = .ok (r, rest) → Q r ∧ ∀ t ∈ rest, t.kind.Valid

namespace Yields

variable {p : Parser α} {f : α → Parser β} {P : α → Prop} {Q : β → Prop} {R : α → Prop}

theorem bind (hp : Yields p P) (hf : ∀ a, P a → Yields (f a) Q) : Yields (p >>= f) Q := by
  intro ts r rest hts h
  obtain ⟨a, ts₁, h₁, h⟩ := state_bind_eq_ok_iff.mp h
  obtain ⟨ha, hts₁⟩ := hp ts a ts₁ hts h₁
  exact hf a ha ts₁ r rest hts₁ h

theorem pure {a : α} (ha : R a) : Yields (Pure.pure a) R := by
  intro ts r rest hts h
  cases h
  exact ⟨ha, hts⟩

theorem throw {c : Cause} : Yields (throw c) R := by
  intro ts r rest _ h
  cases h

theorem lift {x : Except Cause α} (hx : ∀ a, x = .ok a → R a) : Yields (liftM x) R := by
  intro ts r rest hts h
  cases x with
  | error e => cases h
  | ok a =>
      cases h
      exact ⟨hx r rfl, hts⟩

theorem get : Yields (MonadState.get : Parser Cursor) fun ts => ∀ t ∈ ts, t.kind.Valid := by
  intro ts r rest hts h
  cases h
  exact ⟨hts, hts⟩

theorem unexpected : Yields (Parser.unexpected : Parser α) R := by
  refine .bind .get fun ts _ => ?_
  cases ts with
  | nil => exact .throw
  | cons t ts => exact .throw

/-- A parser that only moves along the tokens. -/
theorem modifyGet {f : Cursor → α × Cursor} (hf : ∀ ts, (∀ t ∈ ts, t.kind.Valid) → R (f ts).1)
    (hsub : ∀ ts, (f ts).2 ⊆ ts) : Yields (modifyGet f : Parser α) R := by
  intro ts r rest hts h
  obtain ⟨rfl, rfl⟩ := Prod.ext_iff.mp (Except.ok.inj h)
  exact ⟨hf ts hts, fun t ht => hts t (hsub ts ht)⟩

theorem skipBlanks : Yields Parser.skipBlanks fun _ => True :=
  .modifyGet (fun _ _ => trivial) fun _ => (List.dropWhile_sublist _).subset

theorem next : Yields Parser.next? fun t => ∀ u ∈ t, u.kind.Valid :=
  .modifyGet (fun _ hts u hu => hts u (List.mem_of_mem_head? hu))
    fun _ => (List.tail_sublist _).subset

theorem eat (k : TokenKind) : Yields (Parser.eat k) fun _ => True := by
  refine .modifyGet (fun _ _ => trivial) fun ts => ?_
  cases ts with
  | nil => exact List.Subset.refl _
  | cons t ts =>
      by_cases ht : t.kind = k
      · simp [Cursor.eat?, ht]
      · simp [Cursor.eat?, ht]

theorem countSigns (sign : TokenKind) : Yields (Parser.countSigns sign) fun _ => True := by
  intro ts count rest hts h
  unfold Parser.countSigns Cursor.countSigns? at h
  dsimp only at h
  split_ifs at h
  cases h
  exact ⟨trivial, fun t ht => hts t ((List.dropWhile_sublist _).subset ht)⟩

end Yields

/-- What holds of every expression of a line. -/
def Expression.Valid : Expression → Prop
  | number n => n.natAbs < 0x100000000
  | symbol name offset => IsName name ∧ offset.natAbs < 0x100000000

theorem Expression.yields_parseOffset {name : String} {sign : Int} (hn : IsName name)
    (hs : sign.natAbs = 1) : Yields (parseOffset name sign) Valid := by
  refine .bind .next fun t ht => ?_
  cases t with
  | none => exact .throw
  | some t =>
      have htoken := ht t rfl
      cases hk : t.kind with
      | number radix n =>
          rw [hk] at htoken
          simp only [Option.bind_some, hk, TokenKind.number?]
          refine .pure ⟨hn, ?_⟩
          rw [Int.natAbs_mul, hs, Nat.one_mul]
          exact htoken
      | _ =>
          simp only [Option.bind_some, hk, TokenKind.number?]
          exact .throw

theorem Expression.yields_parse : Yields Expression.parse Valid := by
  refine .bind .skipBlanks fun _ _ => .bind (.eat _) fun negative _ => .bind .next fun t ht => ?_
  cases t with
  | none => exact .throw
  | some t =>
      have htoken := ht t rfl
      dsimp only
      split
      · next n hk =>
        rw [hk] at htoken
        refine .pure ?_
        rw [Valid, Int.natAbs_neg]
        exact htoken
      · next n hk =>
        rw [hk] at htoken
        exact .pure htoken
      · next name hk =>
        rw [hk] at htoken
        refine .bind (.eat _) fun plus _ => ?_
        split_ifs
        · exact yields_parseOffset htoken rfl
        · refine .bind (.eat _) fun minus _ => ?_
          split_ifs
          · exact yields_parseOffset htoken rfl
          · exact .pure ⟨htoken, by decide⟩
      · exact .throw

/-- What holds of every operand of a line. -/
def Operand.Valid : Operand → Prop
  | inherent => True
  | immediate e | address e => e.Valid
  | indexed form => form.Legal

theorem Operand.yields_parseIndex (offset : Option Register) :
    Yields (parseIndex offset) Valid := by
  refine .bind .skipBlanks fun _ _ => .bind (.countSigns _) fun minus _ => .bind .get fun ts _ => ?_
  split
  · next index _ =>
    refine .bind .next fun _ _ => .bind (.countSigns _) fun plus _ => ?_
    refine .bind (.lift fun _ _ => trivial) fun step _ => ?_
    cases hform : IndexForm.ofParts index offset step with
    | ok form => exact .pure ⟨index, offset, step, hform⟩
    | error e => exact .throw
  · exact .unexpected

theorem Operand.yields_parse : Yields Operand.parse Valid := by
  refine .bind .skipBlanks fun _ _ => .bind .get fun ts _ => ?_
  split
  · exact .pure trivial
  · exact .bind .next fun _ _ => .bind Expression.yields_parse fun e he => .pure he
  · exact .bind .next fun _ _ => yields_parseIndex none
  · next offset _ =>
    refine .bind .next fun _ _ => .bind (.eat _) fun comma _ => ?_
    split_ifs
    · exact yields_parseIndex (some offset)
    · exact .unexpected
  · split_ifs
    · exact .pure trivial
    · exact .bind Expression.yields_parse fun e he => .pure he

/-- What holds of every statement of a line, with a label before it or without. -/
def Statement.Valid (labelled : Bool) : Statement → Prop
  | instruction _ operand => operand.Valid
  | reserve count => count.Valid
  | string s => '"' ∉ s.toList
  | bytes values => values ≠ [] ∧ ∀ e ∈ values, e.Valid
  | finish entry => ∀ e ∈ entry, e.Valid
  | define value => labelled = true ∧ value.Valid

namespace Statement

variable {labelled : Bool}

theorem yields_parseValues (found : List Expression) (bound : Nat) (hne : found ≠ [])
    (hf : ∀ e ∈ found, e.Valid) :
    Yields (parseValues found bound) fun values => values ≠ [] ∧ ∀ e ∈ values, e.Valid := by
  have done : Yields (pure found.reverse : Parser (List Expression)) fun values =>
      values ≠ [] ∧ ∀ e ∈ values, e.Valid :=
    .pure ⟨by simpa using hne, fun e he => hf e (List.mem_reverse.mp he)⟩
  induction bound generalizing found with
  | zero => exact done
  | succ bound ih =>
      refine .bind .skipBlanks fun _ _ => .bind (.eat _) fun comma _ => ?_
      split_ifs
      · refine .bind Expression.yields_parse fun value hvalue => ?_
        have hall : ∀ e ∈ value :: found, e.Valid := List.forall_mem_cons.mpr ⟨hvalue, hf⟩
        refine ih _ (List.cons_ne_nil _ _) hall (.pure ⟨by simp, fun e he => ?_⟩)
        exact hall e (List.mem_reverse.mp he)
      · exact done

theorem yields_parseDirective (d : Directive) :
    Yields (parseDirective labelled d) (Valid labelled) := by
  refine .bind .skipBlanks fun _ _ => ?_
  cases d with
  | rmb => exact .bind Expression.yields_parse fun e he => .pure he
  | str =>
      refine .bind .next fun t ht => ?_
      split
      · next s hs =>
        obtain ⟨u, rfl, hkind⟩ := Option.map_eq_some_iff.mp hs
        have htoken := ht u rfl
        rw [hkind] at htoken
        exact .pure htoken
      · exact .throw
  | chr =>
      refine .bind Expression.yields_parse fun e he => .bind .get fun ts _ => ?_
      refine .bind (yields_parseValues [e] _ (by simp) ?_) fun values hvalues => .pure hvalues
      exact List.forall_mem_cons.mpr ⟨he, List.forall_mem_nil _⟩
  | finish =>
      refine .bind .get fun ts _ => ?_
      split_ifs
      · exact .pure (by simp [Valid])
      · refine .bind Expression.yields_parse fun e he => .pure ?_
        simpa [Valid] using he
  | equ =>
      split_ifs
      · next hl => exact .bind Expression.yields_parse fun e he => .pure ⟨hl, he⟩
      · exact .throw

theorem yields_parse :
    Yields (Statement.parse labelled) fun o => ∀ s ∈ o, s.Valid labelled := by
  refine .bind .get fun ts _ => ?_
  split
  · exact .pure (by simp)
  · refine .bind .next fun _ _ => .bind Operand.yields_parse fun operand h => .pure ?_
    simpa [Valid] using h
  · refine .bind .next fun _ _ => .bind (yields_parseDirective _) fun s hs => .pure ?_
    simpa using hs
  · exact .throw
  · split_ifs
    · exact .pure (by simp)
    · exact .unexpected

end Statement

namespace Line

theorem yields_parseLabel : Yields parseLabel fun label => ∀ name ∈ label, IsName name := by
  refine .bind .get fun _ _ => .bind .skipBlanks fun _ _ => .bind .get fun ts hts => ?_
  split
  · next t rest =>
    have htoken := hts t List.mem_cons_self
    split
    · next name hk =>
      rw [hk] at htoken
      have hname : IsName name := htoken
      split_ifs
      · exact .bind .next fun _ _ => .bind (.eat _) fun _ _ => .pure (by simpa using hname)
      · exact .pure (by simp)
    · exact .pure (by simp)
  · exact .pure (by simp)

theorem yields_parseParts : Yields parseParts fun parts =>
    (∀ name ∈ parts.1, IsName name) ∧ ∀ s ∈ parts.2.1, s.Valid parts.1.isSome := by
  refine .bind yields_parseLabel fun label hlabel => .bind .skipBlanks fun _ _ => ?_
  refine .bind Statement.yields_parse fun statement hs => .bind .skipBlanks fun _ _ => ?_
  refine .bind .get fun ts _ => ?_
  split_ifs
  · exact .bind .get fun _ _ => .pure ⟨hlabel, hs⟩
  · exact .unexpected

/-- Whether a line names a number. -/
def isDefinition (line : Line) : Bool :=
  match line.statement with
  | some (.define _) => true
  | _ => false

theorem isDefinition_iff {line : Line} :
    line.isDefinition = true ↔ ∃ e, line.statement = some (.define e) := by
  unfold isDefinition
  split
  · next e he => exact iff_of_true rfl ⟨e, he⟩
  · next hne => exact iff_of_false nofun fun ⟨e, he⟩ => hne e he

section
variable {number : Nat} {source : String} {line : Line}
  (h : Line.parse number source = .ok line)
include h

theorem source_of_parse : line.source = source := by
  obtain ⟨ts, -, h⟩ := bind_eq_ok_iff.mp h
  split at h <;> cases h
  rfl

theorem number_of_parse : line.number = number := by
  obtain ⟨ts, -, h⟩ := bind_eq_ok_iff.mp h
  split at h <;> cases h
  rfl

theorem valid_of_parse :
    (∀ name ∈ line.label, IsName name) ∧ ∀ s ∈ line.statement, s.Valid line.label.isSome := by
  obtain ⟨ts, hts, h⟩ := bind_eq_ok_iff.mp h
  split at h <;> cases h
  next hparts => exact (yields_parseParts ts _ _ (valid_of_tokenizeLine hts) hparts).1

theorem isName_of_parse {name : String} (hl : line.label = some name) : IsName name :=
  (valid_of_parse h).1 name hl

/-- Only a line with a label can name a number. -/
theorem isSome_label_of_parse (hd : line.isDefinition = true) : line.label.isSome = true := by
  obtain ⟨e, he⟩ := isDefinition_iff.mp hd
  exact ((valid_of_parse h).2 _ he).1

theorem legal_of_parse {m : Mnemonic} {form : IndexForm}
    (hl : line.statement = some (.instruction m (.indexed form))) : form.Legal :=
  (valid_of_parse h).2 _ hl

end

end Line

end Source

end B33
