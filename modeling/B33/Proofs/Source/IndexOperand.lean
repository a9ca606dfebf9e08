import B33.Proofs.Source.Spelling

/-!
# The signs of an index operand

An index operand may be written with any number of minus signs before its register and any number of
plus signs behind it, but only four of these spellings are steps. The parser counts the signs in
bytes before it looks whether they are one of them. So it refuses all others up to 255 signs, and
more signs than that break the run off.
-/
namespace B33

/-- A step and the numbers of minus and plus signs that it is written with. -/
inductive IndexStep.Written : IndexStep → Nat → Nat → Prop
  | none : Written .none 0 0
  | dec_one : Written (.dec 1) 1 0
  | dec_two : Written (.dec 2) 2 0
  | inc_one : Written (.inc 1) 0 1
  | inc_two : Written (.inc 2) 0 2

namespace IndexForm

variable {index : Register} {offset : Option Register} {step : IndexStep} {form : IndexForm}

/-- Whether the registers of an index operand are such that it can be encoded. -/
structure Admits (offset : Option Register) (index : Register) : Prop where
  index : index = .x ∨ index = .y
  offset : ∀ r, offset = some r → r = .a ∨ r = .b ∨ r = .d

theorem isIndex_iff : isIndex index = true ↔ index = .x ∨ index = .y := by
  cases index <;> simp [isIndex]

theorem isOffset_iff {r : Register} : isOffset r = true ↔ r = .a ∨ r = .b ∨ r = .d := by
  cases r <;> simp [isOffset]

theorem ofParts_eq_ok_iff :
    ofParts index offset step = .ok form ↔ Admits offset index ∧
      (∀ n, step.amount? = some n → n = 1 ∨ n = 2) ∧ form = { index, offset, step } := by
  constructor
  case mp =>
    intro h
    obtain rfl : form = { index, offset, step } := by
      unfold ofParts at h
      split_ifs at h
      split at h <;> cases h
      rfl
    obtain ⟨hindex, hoffset, hamount⟩ := Legal.parts ⟨index, offset, step, h⟩
    exact ⟨⟨isIndex_iff.mp hindex, fun r hr => isOffset_iff.mp (hoffset r hr)⟩, hamount, rfl⟩
  case mpr =>
    rintro ⟨⟨hindex, hoffset⟩, hamount, rfl⟩
    have hno : offset.filter (!isOffset ·) = none := by
      rw [Option.filter_eq_none_iff]
      intro r hr
      simpa using isOffset_iff.mpr (hoffset r hr)
    have hstep : step.amount?.filter (!isAmount ·) = none := by
      rw [Option.filter_eq_none_iff]
      intro n hn
      simpa [isAmount, or_iff_not_imp_left] using hamount n hn
    rw [ofParts, isIndex_iff.mpr hindex, hno, hstep]
    rfl

end IndexForm

namespace Source

namespace Operand

variable {offset : Option Register} {minus plus : UInt8} {index : Register} {step : IndexStep}

theorem stepOfSigns_iff :
    (stepOfSigns minus plus = .ok step ∧ ∀ n, step.amount? = some n → n = 1 ∨ n = 2) ↔
      step.Written minus.toNat plus.toNat := by
  constructor
  case mp =>
    rintro ⟨hstep, hamount⟩
    unfold stepOfSigns at hstep
    split_ifs at hstep with hminus hplus hplus
    · cases hstep
      subst hminus hplus
      exact .none
    · cases hstep
      subst hminus
      rcases hamount plus rfl with rfl | rfl
      · exact .inc_one
      · exact .inc_two
    · cases hstep
      subst hplus
      rcases hamount minus rfl with rfl | rfl
      · exact .dec_one
      · exact .dec_two
  case mpr =>
    intro h
    generalize hi : minus.toNat = i at h
    generalize hj : plus.toNat = j at h
    have hminus : minus = UInt8.ofNat i := by rw [← hi, UInt8.ofNat_toNat]
    have hplus : plus = UInt8.ofNat j := by rw [← hj, UInt8.ofNat_toNat]
    subst hminus hplus
    cases h with
    | none => exact ⟨rfl, nofun⟩
    | dec_one | dec_two | inc_one | inc_two => exact ⟨rfl, by simp [IndexStep.amount?]⟩

/-- The form of an index operand with so many signs. -/
def formOfSigns (offset : Option Register) (minus : Nat) (index : Register) (plus : Nat) :
    Except Cause IndexForm :=
  if minus < 256 ∧ plus < 256 then
    stepOfSigns (.ofNat minus) (.ofNat plus) >>= fun step =>
      (IndexForm.ofParts index offset step).mapError .index
  else .error .countOverflow

theorem formOfSigns_eq_ok_iff {minus plus : Nat} {form : IndexForm} :
    formOfSigns offset minus index plus = .ok form ↔ IndexForm.Admits offset index ∧
      ∃ step : IndexStep, step.Written minus plus ∧ form = { index, offset, step } := by
  have hmap {step : IndexStep} : (IndexForm.ofParts index offset step).mapError Cause.index =
      .ok form ↔ IndexForm.ofParts index offset step = .ok form := by
    cases IndexForm.ofParts index offset step <;> simp [Except.mapError]
  unfold formOfSigns
  split_ifs with hcount
  · have hsteps (step : IndexStep) : (stepOfSigns (.ofNat minus) (.ofNat plus) = .ok step ∧
        ∀ n, step.amount? = some n → n = 1 ∨ n = 2) ↔ step.Written minus plus := by
      rw [stepOfSigns_iff, UInt8.toNat_ofNat_of_lt' hcount.1, UInt8.toNat_ofNat_of_lt' hcount.2]
    simp only [bind_eq_ok_iff, hmap, IndexForm.ofParts_eq_ok_iff, ← hsteps]
    constructor
    case mp =>
      rintro ⟨step, hstep, hadmits, hamount, hform⟩
      exact ⟨hadmits, step, ⟨hstep, hamount⟩, hform⟩
    case mpr =>
      rintro ⟨hadmits, step, ⟨hstep, hamount⟩, hform⟩
      exact ⟨step, hstep, hadmits, hamount, hform⟩
  · -- Whatever stands for a step has two signs at most.
    refine iff_of_false nofun ?_
    rintro ⟨-, step, hstep, -⟩
    cases hstep <;> exact hcount (by decide)

/-- What has no form has more signs than a byte counts, signs on both sides, or a part that no index
byte has bits for. -/
theorem cause_of_formOfSigns {minus plus : Nat} {c : Cause}
    (h : formOfSigns offset minus index plus = .error c) :
    (255 < minus ∨ 255 < plus) ∧ c = .countOverflow ∨
      ¬(255 < minus ∨ 255 < plus) ∧ (c = .bothSteps ∨ ∃ e, c = .index e) := by
  unfold formOfSigns at h
  split_ifs at h with hcount
  · refine .inr ⟨by omega, ?_⟩
    cases hstep : stepOfSigns (.ofNat minus) (.ofNat plus) with
    | error d =>
        rw [hstep] at h
        unfold stepOfSigns at hstep
        split_ifs at hstep
        cases hstep
        cases h
        exact .inl rfl
    | ok step =>
        rw [hstep, ok_bind] at h
        cases hform : IndexForm.ofParts index offset step with
        | error e =>
            rw [hform] at h
            cases h
            exact .inr ⟨e, rfl⟩
        | ok form =>
            rw [hform] at h
            cases h
  · cases h
    exact .inl ⟨by omega, rfl⟩

end Operand

variable {α β : Type}

/-- On tokens of the given kinds a parser has this result. If it does not refuse them it leaves
none. -/
def Exhausts (p : Parser α) (before : List TokenKind) (x : Except Cause α) : Prop :=
  ∀ ts : Cursor, ts.map (·.kind) = before → p ts = x.map (·, [])

namespace Exhausts

variable {p : Parser α} {f : α → Parser β} {a : α} {before middle : List TokenKind}

theorem bind {x : Except Cause β} (hp : Parses p before a middle) (hf : Exhausts (f a) middle x) :
    Exhausts (p >>= f) before x := by
  intro ts hts
  obtain ⟨ts₁, h₁, hts₁⟩ := hp ts hts
  rw [state_bind_apply, h₁]
  exact hf ts₁ hts₁

theorem get {f : Cursor → Parser β} {x : Except Cause β}
    (h : ∀ ts : Cursor, ts.map (·.kind) = before → Exhausts (f ts) before x) :
    Exhausts (MonadState.get >>= f) before x := fun ts hts => h ts hts ts hts

theorem next {k : TokenKind} {f : Option Token → Parser β} {x : Except Cause β}
    (h : ∀ t : Token, Exhausts (f (some t)) before x) :
    Exhausts (Parser.next? >>= f) (k :: before) x := by
  intro ts hts
  obtain ⟨t, ts', rfl, -, hts'⟩ := List.map_eq_cons_iff.mp hts
  exact h t ts' hts'

theorem pure {a : α} : Exhausts (Pure.pure a) [] (.ok a) := by
  intro ts hts
  obtain rfl := List.map_eq_nil_iff.mp hts
  rfl

theorem throw {c : Cause} : Exhausts (throw c : Parser α) before (.error c) := fun _ _ => rfl

theorem lift {γ : Type} {x : Except Cause α} {y : α → Except Cause γ} {g : γ → β}
    (h : ∀ a, Exhausts (f a) [] ((y a).map g)) : Exhausts (liftM x >>= f) [] ((x >>= y).map g) := by
  intro ts hts
  cases x with
  | error c => rfl
  | ok a => exact h a ts hts

/-- More signs than a byte counts end everything. -/
theorem countOverflow {sign : TokenKind} {ks : List TokenKind} {n : Nat} {f : UInt8 → Parser β}
    (hn : ¬n < 256) (hk : ks.head? ≠ some sign) :
    Exhausts (Parser.countSigns sign >>= f) (List.replicate n sign ++ ks)
      (.error .countOverflow) := by
  intro ts hts
  obtain ⟨rest, -, hcount⟩ := exists_countSigns? hts hk
  rw [if_neg hn] at hcount
  rw [state_bind_apply, Parser.countSigns, hcount]
  rfl

/-- What comes behind the last token adds to the result. -/
theorem andThen {x : Except Cause α} {g : α → β} (hp : Exhausts p before x)
    (hf : ∀ a, f a [] = .ok (g a, [])) : Exhausts (p >>= f) before (x.map g) := by
  intro ts hts
  rw [state_bind_apply, hp ts hts]
  cases x with
  | error c => rfl
  | ok a => exact hf a

end Exhausts

section
variable (m : Mnemonic) (offset : Option Register) (minus : Nat) (index : Register) (plus : Nat)

/-- An instruction with an index operand that has any registers and any signs. -/
def indexLine : String :=
  " " ++ m.name ++ " " ++ (offset.map Register.name).getD "" ++ "," ++
    String.ofList (List.replicate minus '-') ++ index.name ++
    String.ofList (List.replicate plus '+')

/-- The kinds of the tokens of an index operand behind its comma. -/
def signedKinds : List TokenKind :=
  List.replicate minus .minus ++ .register index :: List.replicate plus .plus

def operandKinds : List TokenKind :=
  (offset.map TokenKind.register).toList ++ .comma :: signedKinds minus index plus

theorem lexes_indexLine : Lexes (indexLine m offset minus index plus).toList
    (.blanks :: .mnemonic m :: .blanks :: operandKinds offset minus index plus) := by
  have hsigned : Lexes (List.replicate minus '-' ++ (index.name.toList ++ List.replicate plus '+'))
      (signedKinds minus index plus) := by
    have hplus := lexes_pluses plus .nil
    rw [List.append_nil, List.append_nil] at hplus
    have hends : EndsWord (List.replicate plus '+') := by
      rw [← List.append_nil (List.replicate plus '+')]
      exact endsWord_replicate plus rfl (by simp [EndsWord])
    exact lexes_minuses minus ((isWord_register index).lexes hends hplus)
  have hoperand : Lexes (((offset.map Register.name).getD "").toList ++ ',' ::
      (List.replicate minus '-' ++ (index.name.toList ++ List.replicate plus '+')))
      (operandKinds offset minus index plus) := by
    unfold operandKinds
    cases offset with
    | none => exact lexes_comma hsigned
    | some r => exact (isWord_register r).lexes (endsWord_cons rfl _) (lexes_comma hsigned)
  have hword := (isWord_mnemonic m).lexes (endsWord_blanks one_ne_zero _)
    (lexes_blanks one_ne_zero (hoperand.endsBlanks ?_) hoperand)
  have hline := lexes_blanks one_ne_zero (hword.endsBlanks (by simp)) hword
  · simpa [indexLine] using hline
  · cases offset <;> simp [operandKinds]

theorem exhausts_parseIndex : Exhausts (Operand.parseIndex offset) (signedKinds minus index plus)
    ((Operand.formOfSigns offset minus index plus).map .indexed) := by
  unfold Operand.parseIndex signedKinds
  refine .bind (.skipBlanks _) ?_
  rw [dropWhile_of_head?_ne (by cases minus <;> simp [List.replicate_succ])]
  by_cases hminus : minus < 256
  case neg =>
    rw [Operand.formOfSigns, if_neg fun hcount => hminus hcount.1]
    exact .countOverflow hminus (by simp)
  refine .bind (.countSigns hminus (by simp)) (.get fun ts hts => ?_)
  rw [kind?_of_map hts]
  refine .next fun t => ?_
  rw [← List.append_nil (List.replicate plus TokenKind.plus)]
  by_cases hplus : plus < 256
  case neg =>
    rw [Operand.formOfSigns, if_neg fun hcount => hplus hcount.2]
    exact .countOverflow hplus (by simp)
  rw [Operand.formOfSigns, if_pos ⟨hminus, hplus⟩]
  refine .bind (.countSigns hplus (by simp)) (.lift fun step => ?_)
  cases IndexForm.ofParts index offset step with
  | error e => exact .throw
  | ok form => exact .pure

theorem exhausts_operand : Exhausts Operand.parse (.blanks :: operandKinds offset minus index plus)
    ((Operand.formOfSigns offset minus index plus).map .indexed) := by
  unfold Operand.parse operandKinds
  refine .bind (.skipBlanks _) ?_
  cases offset with
  | none =>
      refine .get fun ts hts => ?_
      rw [kind?_of_map hts]
      exact .next fun t => exhausts_parseIndex none minus index plus
  | some r =>
      refine .get fun ts hts => ?_
      rw [kind?_of_map hts]
      exact .next fun t => .bind (.eat _ _) (exhausts_parseIndex (some r) minus index plus)

theorem exhausts_parseParts : Exhausts Line.parseParts
    (.blanks :: .mnemonic m :: .blanks :: operandKinds offset minus index plus)
    ((((Operand.formOfSigns offset minus index plus).map .indexed).map
      fun operand => some (.instruction m operand)).map
        fun statement => (none, statement, none)) := by
  have hstatement : Exhausts (Statement.parse false)
      (.mnemonic m :: .blanks :: operandKinds offset minus index plus)
      (((Operand.formOfSigns offset minus index plus).map .indexed).map
        fun operand => some (.instruction m operand)) := by
    unfold Statement.parse
    refine .get fun ts hts => ?_
    rw [kind?_of_map hts]
    exact .next fun t => (exhausts_operand offset minus index plus).andThen fun operand => rfl
  unfold Line.parseParts
  refine .bind (parses_no_label rfl nofun) (.bind (.skipBlanks _) ?_)
  exact hstatement.andThen fun statement => rfl

/-- A line with an index operand is read as the form its counted signs have. -/
theorem parse_indexLine_eq (number : Nat) :
    Line.parse number (indexLine m offset minus index plus) =
      mapBoth (SourceError.mk number) (fun form =>
        ⟨number, none, some (.instruction m (.indexed form)), none,
          indexLine m offset minus index plus⟩)
        (Operand.formOfSigns offset minus index plus) := by
  obtain ⟨ts, hts, hkinds, -⟩ := (lexes_indexLine m offset minus index plus).tokenizeLine_eq number
  have hparts := exhausts_parseParts m offset minus index plus ts hkinds
  rw [Line.parse, hts, ok_bind, StateT.run, hparts]
  cases Operand.formOfSigns offset minus index plus with
  | error c => rfl
  | ok form => rfl

/-- A line with an index operand is read if and only if its registers make up an index form and its
signs are those of a step. What is read is then the form with just these parts. Up to 255 signs any
other such line is refused, for its signs or for a part of the form. Where there are more before or
behind the register, the run breaks off. -/
theorem parse_indexLine (number : Nat) :
    (∀ line, Line.parse number (indexLine m offset minus index plus) = .ok line ↔
      IndexForm.Admits offset index ∧ ∃ step : IndexStep, step.Written minus plus ∧
        line = ⟨number, none, some (.instruction m (.indexed { index, offset, step })), none,
          indexLine m offset minus index plus⟩) ∧
    (Line.parse number (indexLine m offset minus index plus) = .error ⟨number, .countOverflow⟩ ↔
      255 < minus ∨ 255 < plus) ∧
    ∀ e, Line.parse number (indexLine m offset minus index plus) = .error e →
      e.line = number ∧
        (e.cause = .countOverflow ∨ e.cause = .bothSteps ∨ ∃ f, e.cause = .index f) := by
  rw [parse_indexLine_eq]
  constructor
  case left =>
    intro line
    rw [mapBoth_eq_ok_iff]
    simp only [Operand.formOfSigns_eq_ok_iff]
    constructor
    case mp =>
      rintro ⟨form, ⟨hadmits, step, hstep, rfl⟩, rfl⟩
      exact ⟨hadmits, step, hstep, rfl⟩
    case mpr =>
      rintro ⟨hadmits, step, hstep, rfl⟩
      exact ⟨_, ⟨hadmits, step, hstep, rfl⟩, rfl⟩
  case right =>
    cases hform : Operand.formOfSigns offset minus index plus with
    | ok form =>
        refine ⟨iff_of_false nofun fun hmany => ?_, nofun⟩
        rw [Operand.formOfSigns, if_neg (by omega)] at hform
        cases hform
    | error c =>
        have hcause := Operand.cause_of_formOfSigns hform
        constructor
        case left =>
          rcases hcause with ⟨hmany, rfl⟩ | ⟨hfew, hrefused⟩
          · exact iff_of_true rfl hmany
          · refine iff_of_false ?_ hfew
            rintro ⟨rfl⟩
            rcases hrefused with h | ⟨e, h⟩ <;> cases h
        case right =>
          intro e he
          cases he
          exact ⟨rfl, hcause.imp And.right And.right⟩

/-- No step is written with 256 signs. They are not refused for their number: the run breaks off. -/
theorem breaks_off_at_256_signs :
    Line.parse 1 (indexLine (.load .a) none 256 .x 0) = .error ⟨1, .countOverflow⟩ ∧
      ∀ step : IndexStep, ¬step.Written 256 0 := by
  constructor
  case left =>
    rw [parse_indexLine_eq]
    rfl
  case right =>
    intro step h
    cases h

end

end Source

end B33
