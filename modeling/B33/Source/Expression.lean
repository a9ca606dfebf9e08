import B33.Source.Cursor
import B33.Source.Error

/-!
# Expressions

An expression is a number, or a symbol with a distance from it.
-/

namespace B33.Source

inductive Expression where
  | number (n : Int)
  | symbol (name : String) (offset : Int)
  deriving DecidableEq, Repr

abbrev Parser := StateT Cursor (Except Cause)

namespace Parser

def skipBlanks : Parser Unit := modify Cursor.skipBlanks

def next? : Parser (Option Token) := modifyGet fun ts => (ts.head?, ts.tail)

/-- Takes the next token if it has the given kind, and says whether it did. -/
def eat (kind : TokenKind) : Parser Bool := modifyGet fun ts =>
  match ts.eat? kind with
  | some rest => (true, rest)
  | none => (false, ts)

/-- Takes the tokens of one kind that come next, and says how many they were. -/
def countSigns (sign : TokenKind) : Parser UInt8 := fun ts =>
  match ts.countSigns? sign with
  | some counted => .ok counted
  | none => .error .countOverflow

def unexpected {α : Type} : Parser α := do
  match ← get with
  | t :: _ => throw (.unexpectedToken t.text)
  | [] => throw .unexpectedEnd

end Parser

namespace Expression

def value (lookup : String → Option Int) : Expression → Except Cause Int
  | number n => .ok n
  | symbol name offset =>
    match lookup name with
    | some v => .ok (v + offset)
    | none => .error (.undefinedLabel name)

/-- The expression as it is written: a number of more than one digit in hexadecimal, unless it is
negative. -/
def text : Expression → String
  | number n => if n < 10 then Numeral.integer n else "$" ++ Numeral.hex 0 n.toNat
  | symbol name offset =>
    if offset = 0 then name
    else if offset < 0 then name ++ Numeral.integer offset
    else name ++ "+" ++ Numeral.integer offset

def parseOffset (name : String) (sign : Int) : Parser Expression := do
  match (← Parser.next?).bind (·.kind.number?) with
  | some n => return symbol name (sign * n)
  | none => throw (.missingOffset name)

/-- Reads an expression. A minus sign can stand before a number only. -/
def parse : Parser Expression := do
  Parser.skipBlanks
  let negative ← Parser.eat .minus
  match ← Parser.next? with
  | none => throw .missingExpression
  | some token =>
    match token.kind, negative with
    | .number _ n, true => return number (-n)
    | .number _ n, false => return number n
    | .label name, false =>
      if ← Parser.eat .plus then parseOffset name 1
      else if ← Parser.eat .minus then parseOffset name (-1)
      else return symbol name 0
    | _, _ => throw (.notExpression token.text)

end Expression

end B33.Source
