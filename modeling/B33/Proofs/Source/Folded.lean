import B33.Proofs.Source.Recast
import B33.Proofs.Text.Case

/-!
# Parsing without case

Tokens, and whatever is read from them, can be folded: the names in them are put into capitals, and
the texts of literals stay as they are. Folding recasts the tokens, so what is read from them is
folded too, down to the cause of an error, and a parser cannot tell tokens apart that fold to the
same.
-/
namespace B33

namespace Source

namespace TokenKind

def folded : TokenKind → TokenKind
  | label name => label (foldCase name)
  | comment s => comment (foldCase s)
  | kind => kind

@[simp] theorem folded_folded (k : TokenKind) : k.folded.folded = k.folded := by
  cases k <;> simp [folded]

end TokenKind

def Token.folded (t : Token) : Token :=
  { t with kind := t.kind.folded, text := foldCase t.text }

namespace Expression

def folded : Expression → Expression
  | number n => number n
  | symbol name offset => symbol (foldCase name) offset

end Expression

namespace Operand

def folded : Operand → Operand
  | inherent => inherent
  | immediate e => immediate e.folded
  | address e => address e.folded
  | indexed form => indexed form

end Operand

namespace Statement

def folded : Statement → Statement
  | instruction m operand => instruction m operand.folded
  | reserve count => reserve count.folded
  | string s => string s
  | bytes values => bytes (values.map Expression.folded)
  | finish entry => finish (entry.map Expression.folded)
  | define value => define value.folded

end Statement

def Line.folded (line : Line) : Line where
  number := line.number
  label := line.label.map foldCase
  statement := line.statement.map Statement.folded
  comment := line.comment.map foldCase
  source := foldCase line.source

theorem Line.label_folded (line : Line) : line.folded.label = line.label.map foldCase := rfl

theorem Line.statement_folded (line : Line) :
    line.folded.statement = line.statement.map Statement.folded := rfl

namespace Cause

/-- A cause with the words of the source in it in capitals. -/
def folded : Cause → Cause
  | unexpectedToken text => unexpectedToken (foldCase text)
  | missingOffset symbol => missingOffset (foldCase symbol)
  | notExpression text => notExpression (foldCase text)
  | unknownMnemonic word => unknownMnemonic (foldCase word)
  | invalidNumber text => invalidNumber (foldCase text)
  | undefinedLabel name => undefinedLabel (foldCase name)
  | redefinedLabel name first => redefinedLabel (foldCase name) first
  | cause => cause

@[simp] theorem folded_folded (c : Cause) : c.folded.folded = c.folded := by
  cases c <;> simp [folded]

end Cause

end Source

def SourceError.folded (e : SourceError) : SourceError := { e with cause := e.cause.folded }

namespace Source

abbrev Cursor.folded (ts : Cursor) : Cursor := ts.map Token.folded

/-- Folding puts texts into capitals and leaves the numbers of lines. -/
def Recasting.capitals : Recasting := ⟨foldCase, id⟩

theorem Line.parseParts_congr {ts us : Cursor} (h : ts.folded = us.folded) :
    mapBoth Cause.folded (Prod.map (Prod.map (Option.map foldCase)
        (Prod.map (Option.map Statement.folded) (Option.map foldCase))) Cursor.folded)
        (parseParts ts) =
      mapBoth Cause.folded (Prod.map (Prod.map (Option.map foldCase)
        (Prod.map (Option.map Statement.folded) (Option.map foldCase))) Cursor.folded)
        (parseParts us) :=
  (@recasts_parseParts .capitals).congr h

end Source

end B33
