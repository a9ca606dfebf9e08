import B33.Source.Line
import B33.Proofs.Except

/-!
# Parsing recast tokens

A parser copies the names and the texts of its tokens, and does not look at the numbers of their
lines. So if the tokens are recast, that is, if something is done to their texts or to their
numbers, the same is done to what is read from them and to the cause of an error.
-/
namespace B33.Source

/-- What is done to the names and texts of tokens and to the numbers of their lines. -/
structure Recasting where
  text : String → String
  number : Nat → Nat

section
variable (f : String → String)

namespace TokenKind

/-- The kind with something done to the name or the comment in it. The texts of literals stay. -/
def mapText : TokenKind → TokenKind
  | label name => label (f name)
  | comment s => comment (f s)
  | kind => kind

/-- Whether a kind has nothing in it that could be changed. -/
def IsTextless (kind : TokenKind) : Prop :=
  (∀ name, kind ≠ label name) ∧ ∀ s, kind ≠ comment s

theorem mapText_eq_iff {k kind : TokenKind} (h : kind.IsTextless) :
    k.mapText f = kind ↔ k = kind := by
  cases k with
  | label name => exact iff_of_false (Ne.symm (h.1 _)) (Ne.symm (h.1 _))
  | comment s => exact iff_of_false (Ne.symm (h.2 _)) (Ne.symm (h.2 _))
  | _ => rfl

@[simp] theorem number?_mapText (k : TokenKind) : (k.mapText f).number? = k.number? := by
  cases k <;> rfl

@[simp] theorem isTrivia_mapText (k : TokenKind) : (k.mapText f).isTrivia = k.isTrivia := by
  cases k <;> rfl

end TokenKind

def Expression.mapText : Expression → Expression
  | number n => number n
  | symbol name offset => symbol (f name) offset

namespace Operand

def mapText : Operand → Operand
  | inherent => inherent
  | immediate e => immediate (e.mapText f)
  | address e => address (e.mapText f)
  | indexed form => indexed form

end Operand

namespace Statement

def mapText : Statement → Statement
  | instruction m operand => instruction m (operand.mapText f)
  | reserve count => reserve (count.mapText f)
  | string s => string s
  | bytes values => bytes (values.map (Expression.mapText f))
  | finish entry => finish (entry.map (Expression.mapText f))
  | define value => define (value.mapText f)

end Statement

namespace Cause

/-- The cause with something done to the words of the source in it. -/
def mapText : Cause → Cause
  | unexpectedToken text => unexpectedToken (f text)
  | missingOffset symbol => missingOffset (f symbol)
  | notExpression text => notExpression (f text)
  | unknownMnemonic word => unknownMnemonic (f word)
  | invalidNumber text => invalidNumber (f text)
  | undefinedLabel name => undefinedLabel (f name)
  | redefinedLabel name first => redefinedLabel (f name) first
  | cause => cause

end Cause

end

def Token.recast (r : Recasting) (t : Token) : Token :=
  { t with kind := t.kind.mapText r.text, text := r.text t.text, line := r.number t.line }

namespace Cursor

abbrev recast (r : Recasting) (ts : Cursor) : Cursor := ts.map (Token.recast r)

variable (r : Recasting)

theorem kind?_recast (ts : Cursor) :
    (ts.recast r).kind? = ts.kind?.map (TokenKind.mapText r.text) := by
  cases ts <;> rfl

theorem isDone_recast (ts : Cursor) : (ts.recast r).isDone = ts.isDone := by
  unfold isDone
  rw [List.all_map]
  congr 1
  funext t
  exact t.kind.isTrivia_mapText r.text

theorem comment?_recast (ts : Cursor) : (ts.recast r).comment? = ts.comment?.map r.text := by
  unfold comment?
  induction ts with
  | nil => rfl
  | cons t ts ih =>
      rw [recast, List.map_cons, List.findSome?_cons, List.findSome?_cons, ih]
      cases hk : t.kind <;> simp [Token.recast, TokenKind.mapText, hk]

theorem skipBlanks_recast (ts : Cursor) : (ts.recast r).skipBlanks = ts.skipBlanks.recast r := by
  have hblanks : TokenKind.blanks.IsTextless := ⟨nofun, nofun⟩
  unfold skipBlanks
  rw [recast, List.dropWhile_map]
  congr 2
  funext t
  rw [Bool.eq_iff_iff, Function.comp_apply, beq_iff_eq, beq_iff_eq]
  exact TokenKind.mapText_eq_iff r.text hblanks

theorem eat?_recast {kind : TokenKind} (h : kind.IsTextless) (ts : Cursor) :
    (ts.recast r).eat? kind = (ts.eat? kind).map (recast r) := by
  cases ts with
  | nil => rfl
  | cons t ts =>
      by_cases hk : t.kind = kind
      · simp [eat?, recast, Token.recast, TokenKind.mapText_eq_iff r.text h, hk]
      · simp [eat?, recast, Token.recast, TokenKind.mapText_eq_iff r.text h, hk]

theorem countSigns?_recast {sign : TokenKind} (h : sign.IsTextless) (ts : Cursor) :
    (ts.recast r).countSigns? sign = (ts.countSigns? sign).map (Prod.map id (recast r)) := by
  have hsign : (fun t : Token => t.kind == sign) ∘ Token.recast r = fun t => t.kind == sign := by
    funext t
    rw [Bool.eq_iff_iff, Function.comp_apply, beq_iff_eq, beq_iff_eq]
    exact TokenKind.mapText_eq_iff r.text h
  unfold countSigns?
  rw [recast, List.takeWhile_map, List.dropWhile_map, List.length_map, hsign]
  dsimp only
  split_ifs
  · rfl
  · rfl

end Cursor

variable {r : Recasting} {α β : Type}

/-- On recast tokens the second parser gives what the first gives on the tokens, recast. -/
def Recasts (r : Recasting) (f : α → α) (p q : Parser α) : Prop :=
  ∀ ts : Cursor,
    q (ts.recast r) = mapBoth (Cause.mapText r.text) (Prod.map f (Cursor.recast r)) (p ts)

namespace Recasts
variable {f : α → α} {g : β → β} {p q : Parser α} {k l : α → Parser β}

/-- A parser cannot tell apart what becomes the same when it is recast. -/
theorem congr (hp : Recasts r f p p) {ts us : Cursor} (h : ts.recast r = us.recast r) :
    mapBoth (Cause.mapText r.text) (Prod.map f (Cursor.recast r)) (p ts) =
      mapBoth (Cause.mapText r.text) (Prod.map f (Cursor.recast r)) (p us) := by
  rw [← hp ts, ← hp us, h]

theorem bind (hp : Recasts r f p q) (hk : ∀ a, Recasts r g (k a) (l (f a))) :
    Recasts r g (p >>= k) (q >>= l) := by
  intro ts
  rw [state_bind_apply, state_bind_apply]
  exact mapBoth_bind (hp ts) fun s => hk s.1 s.2

theorem pure {a : α} : Recasts r f (Pure.pure a) (Pure.pure (f a)) := fun _ => rfl

theorem throw {c : Cause} : Recasts r f (throw c) (throw (c.mapText r.text)) := fun _ => rfl

theorem lift {x y : Except Cause α} (h : y = mapBoth (Cause.mapText r.text) f x) :
    Recasts r f (liftM x) (liftM y) := by
  subst h
  intro ts
  cases x with
  | error e => rfl
  | ok a => rfl

theorem get : Recasts r (Cursor.recast r) MonadState.get MonadState.get := fun _ => rfl

theorem unexpected : Recasts r f Parser.unexpected Parser.unexpected := by
  refine .bind .get fun ts => ?_
  cases ts with
  | nil => exact .throw
  | cons t ts => exact .throw

theorem modifyGet {step : Cursor → α × Cursor}
    (h : ∀ ts : Cursor, step (ts.recast r) = Prod.map f (Cursor.recast r) (step ts)) :
    Recasts r f (modifyGet step) (modifyGet step) := fun ts => congrArg Except.ok (h ts)

theorem skipBlanks : Recasts r id Parser.skipBlanks Parser.skipBlanks :=
  .modifyGet fun ts => congrArg (Prod.mk ()) (ts.skipBlanks_recast r)

theorem next : Recasts r (Option.map (Token.recast r)) Parser.next? Parser.next? := by
  refine .modifyGet fun ts => ?_
  cases ts with
  | nil => rfl
  | cons t ts => rfl

theorem eat {kind : TokenKind} (h : kind.IsTextless) :
    Recasts r id (Parser.eat kind) (Parser.eat kind) := by
  refine .modifyGet fun ts => ?_
  rw [Cursor.eat?_recast r h]
  cases ts.eat? kind with
  | none => rfl
  | some rest => rfl

theorem countSigns {sign : TokenKind} (h : sign.IsTextless) :
    Recasts r id (Parser.countSigns sign) (Parser.countSigns sign) := by
  intro ts
  rw [Parser.countSigns, Parser.countSigns, Cursor.countSigns?_recast r h]
  cases ts.countSigns? sign with
  | none => rfl
  | some counted => rfl

end Recasts

namespace Expression

theorem recasts_parseOffset (name : String) (sign : Int) :
    Recasts r (mapText r.text) (parseOffset name sign) (parseOffset (r.text name) sign) := by
  refine .bind .next fun t => ?_
  cases t with
  | none => exact .throw
  | some t =>
      have hnumber : (t.recast r).kind.number? = t.kind.number? := t.kind.number?_mapText r.text
      simp only [Option.map_some, Option.bind_some, hnumber]
      cases t.kind.number? with
      | none => exact .throw
      | some n => exact .pure

theorem recasts_parse : Recasts r (mapText r.text) parse parse := by
  refine .bind .skipBlanks fun _ => .bind (.eat ⟨nofun, nofun⟩) fun negative => ?_
  refine .bind .next fun t => ?_
  cases t with
  | none => exact .throw
  | some t =>
      obtain ⟨kind, text, line, column⟩ := t
      cases kind with
      | number radix n =>
          cases negative with
          | true => exact .pure
          | false => exact .pure
      | label name =>
          cases negative with
          | true => exact .throw
          | false =>
              refine .bind (.eat ⟨nofun, nofun⟩) fun plus => ?_
              dsimp only [id_eq]
              split_ifs
              · exact recasts_parseOffset name 1
              · refine .bind (.eat ⟨nofun, nofun⟩) fun minus => ?_
                dsimp only [id_eq]
                split_ifs
                · exact recasts_parseOffset name (-1)
                · exact .pure
      | _ => exact .throw

end Expression

namespace Operand

theorem recasts_parseIndex (offset : Option Register) :
    Recasts r (mapText r.text) (parseIndex offset) (parseIndex offset) := by
  refine .bind .skipBlanks fun _ => .bind (.countSigns ⟨nofun, nofun⟩) fun minus => ?_
  refine .bind .get fun ts => ?_
  rw [Cursor.kind?_recast]
  cases hk : ts.kind? with
  | none => exact .unexpected
  | some kind =>
      cases kind with
      | register index =>
          refine .bind .next fun _ => .bind (.countSigns ⟨nofun, nofun⟩) fun plus => ?_
          have hstep : stepOfSigns minus plus =
              mapBoth (Cause.mapText r.text) id (stepOfSigns minus plus) := by
            unfold stepOfSigns
            split_ifs <;> rfl
          refine .bind (.lift hstep) fun step => ?_
          dsimp only [id_eq]
          cases IndexForm.ofParts index offset step with
          | ok form => exact .pure
          | error e => exact .throw
      | _ => exact .unexpected

theorem recasts_parse : Recasts r (mapText r.text) parse parse := by
  refine .bind .skipBlanks fun _ => .bind .get fun ts => ?_
  rw [Cursor.kind?_recast]
  cases hk : ts.kind? with
  | none => exact .pure
  | some kind =>
      cases kind with
      | hash => exact .bind .next fun _ => .bind Expression.recasts_parse fun e => .pure
      | comma => exact .bind .next fun _ => recasts_parseIndex none
      | register offset =>
          refine .bind .next fun _ => .bind (.eat ⟨nofun, nofun⟩) fun comma => ?_
          dsimp only [id_eq]
          split_ifs
          · exact recasts_parseIndex (some offset)
          · exact .unexpected
      | comment | blanks | newline | endOfSource => exact .pure
      | _ => exact .bind Expression.recasts_parse fun e => .pure

end Operand

namespace Statement

theorem recasts_parseValues (found : List Expression) (bound : Nat) :
    Recasts r (List.map (Expression.mapText r.text)) (parseValues found bound)
      (parseValues (found.map (Expression.mapText r.text)) bound) := by
  have hdone (found : List Expression) :
      Recasts r (List.map (Expression.mapText r.text)) (pure found.reverse)
        (pure (found.map (Expression.mapText r.text)).reverse) := by
    rw [← List.map_reverse]
    exact .pure
  induction bound generalizing found with
  | zero => exact hdone found
  | succ bound ih =>
      refine .bind .skipBlanks fun _ => .bind (.eat ⟨nofun, nofun⟩) fun comma => ?_
      dsimp only [id_eq]
      split_ifs
      · exact .bind Expression.recasts_parse fun value => ih (value :: found)
      · exact hdone found

theorem recasts_parseDirective (labelled : Bool) (d : Directive) :
    Recasts r (mapText r.text) (parseDirective labelled d) (parseDirective labelled d) := by
  refine .bind .skipBlanks fun _ => ?_
  cases d with
  | rmb => exact .bind Expression.recasts_parse fun e => .pure
  | str =>
      refine .bind .next fun t => ?_
      cases t with
      | none => exact .throw
      | some t =>
          obtain ⟨kind, text, line, column⟩ := t
          cases kind with
          | text s => exact .pure
          | _ => exact .throw
  | chr =>
      refine .bind Expression.recasts_parse fun e => .bind .get fun ts => ?_
      rw [Cursor.recast, List.length_map]
      exact .bind (recasts_parseValues [e] _) fun values => .pure
  | finish =>
      refine .bind .get fun ts => ?_
      rw [Cursor.isDone_recast]
      split_ifs
      · exact .pure
      · exact .bind Expression.recasts_parse fun e => .pure
  | equ =>
      cases labelled with
      | false => exact .throw
      | true => exact .bind Expression.recasts_parse fun e => .pure

theorem recasts_parse (labelled : Bool) :
    Recasts r (Option.map (mapText r.text)) (parse labelled) (parse labelled) := by
  refine .bind .get fun ts => ?_
  rw [Cursor.kind?_recast]
  cases hk : ts.kind? with
  | none => exact .pure
  | some kind =>
      cases kind with
      | mnemonic m => exact .bind .next fun _ => .bind Operand.recasts_parse fun operand => .pure
      | directive d =>
          exact .bind .next fun _ => .bind (recasts_parseDirective labelled d) fun s => .pure
      | label name => exact .throw
      | comment | blanks | newline | endOfSource => exact .pure
      | _ => exact .unexpected

end Statement

namespace Line

theorem startsWithWord_recast (ts : Cursor) :
    startsWithWord (ts.recast r) = startsWithWord ts := by
  cases ts with
  | nil => rfl
  | cons t ts =>
      obtain ⟨kind, text, line, column⟩ := t
      cases kind with
      | label name => cases column <;> rfl
      | _ => rfl

theorem recasts_parseLabel : Recasts r (Option.map r.text) parseLabel parseLabel := by
  refine .bind .get fun start => ?_
  rw [startsWithWord_recast]
  refine .bind .skipBlanks fun _ => .bind .get fun ts => ?_
  cases ts with
  | nil => exact .pure
  | cons t rest =>
      have hcolon : Cursor.kind? (Cursor.recast r rest) = some .colon ↔
          Cursor.kind? rest = some .colon := by
        have htextless : TokenKind.colon.IsTextless := ⟨nofun, nofun⟩
        simp [Cursor.kind?_recast, TokenKind.mapText_eq_iff r.text htextless]
      obtain ⟨kind, text, line, column⟩ := t
      cases kind with
      | label name =>
          simp only [Cursor.recast, List.map_cons, Token.recast, TokenKind.mapText,
            Bool.or_eq_true, beq_iff_eq]
          rw [if_congr (or_congr_right hcolon) rfl rfl]
          split_ifs
          · exact .bind .next fun _ => .bind (.eat ⟨nofun, nofun⟩) fun _ => .pure
          · exact .pure
      | _ => exact .pure

theorem recasts_parseParts :
    Recasts r (Prod.map (Option.map r.text) (Prod.map (Option.map (Statement.mapText r.text))
      (Option.map r.text))) parseParts parseParts := by
  refine .bind recasts_parseLabel fun label => .bind .skipBlanks fun _ => ?_
  rw [Option.isSome_map]
  refine .bind (Statement.recasts_parse label.isSome) fun statement => .bind .skipBlanks fun _ => ?_
  refine .bind .get fun ts => ?_
  rw [Cursor.isDone_recast]
  split_ifs
  · refine .bind .get fun ts => ?_
    rw [Cursor.comment?_recast]
    exact .pure
  · exact .unexpected

end Line

end B33.Source
