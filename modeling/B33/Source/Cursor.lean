import B33.Source.Token

/-!
# Walking through tokens

A cursor is the tokens that are still to be read.
-/

namespace B33.Source

abbrev Cursor := List Token

namespace Cursor

def kind? (ts : Cursor) : Option TokenKind := ts.head?.map (·.kind)

/-- The tokens after the next one, if that has the kind asked for. -/
def eat? (ts : Cursor) (kind : TokenKind) : Option Cursor :=
  match ts with
  | t :: rest => if t.kind = kind then some rest else none
  | [] => none

def skipBlanks (ts : Cursor) : Cursor := ts.dropWhile fun t => t.kind == .blanks

def isDone (ts : Cursor) : Bool := ts.all (·.kind.isTrivia)

def comment? (ts : Cursor) : Option String :=
  ts.findSome? fun t => match t.kind with
    | .comment s => some s
    | _ => none

/-- Eats tokens of one kind and counts them in a byte. More than a byte can count have no count. -/
def countSigns? (sign : TokenKind) (ts : Cursor) : Option (UInt8 × Cursor) :=
  let count := (ts.takeWhile fun t => t.kind == sign).length
  if count < 256 then some (UInt8.ofNat count, ts.dropWhile fun t => t.kind == sign) else none

end Cursor

end B33.Source
