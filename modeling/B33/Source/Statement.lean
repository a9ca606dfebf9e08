import B33.Source.Operand
import B33.Text.Columns
import B33.Text.Style

/-!
# Statements

A statement is an instruction or a directive. It is written in pieces, each of which has a colour
in a listing.
-/

namespace B33.Source

inductive Statement where
  | instruction (m : Mnemonic) (operand : Operand)
  /-- A number of zero bytes. -/
  | reserve (count : Expression)
  /-- A text and a zero byte. -/
  | string (s : String)
  | bytes (values : List Expression)
  /-- The end of the source, which can name the entry. -/
  | finish (entry : Option Expression)
  /-- A value for the line's label. -/
  | define (value : Expression)
  deriving DecidableEq, Repr

namespace Statement

/-- The pieces of the written statement. What follows the leading word starts in its seventh
column. -/
def pieces : Statement → List (Style × String)
  | instruction m .inherent => [(.red, padRight 6 m.name)]
  | instruction m operand => [(.red, padRight 6 m.name), (.blue, operand.text)]
  | reserve count => [(.cyan, padRight 6 "RMB"), (.yellow, count.text)]
  | string s => [(.cyan, padRight 6 "STR"), (.yellow, "\"" ++ s ++ "\"")]
  | bytes values =>
    [(.cyan, padRight 6 "CHR"), (.yellow, ",".intercalate (values.map Expression.text))]
  | finish (some e) => [(.cyan, padRight 6 "END"), (.green, e.text)]
  | finish none => [(.cyan, "END")]
  | define value => [(.cyan, padRight 6 "EQU"), (.yellow, value.text)]

def text (s : Statement) : String := String.join (s.pieces.map (·.2))

def coloured (s : Statement) : String := Style.paintRun s.pieces

/-- Reads further values, each after a comma, onto those already found, which stand last one first.
Every value takes a token, so the number of tokens that are left bounds their number. -/
def parseValues (found : List Expression) : Nat → Parser (List Expression)
  | 0 => return found.reverse
  | bound + 1 => do
    Parser.skipBlanks
    if ← Parser.eat .comma then
      let value ← Expression.parse
      parseValues (value :: found) bound
    else return found.reverse

def parseDirective (labelled : Bool) (d : Directive) : Parser Statement := do
  Parser.skipBlanks
  match d with
  | .rmb => return reserve (← Expression.parse)
  | .str =>
    match (← Parser.next?).map Token.kind with
    | some (.text s) => return string s
    | _ => throw .missingText
  | .chr =>
    let value ← Expression.parse
    return bytes (← parseValues [value] (← get).length)
  | .finish =>
    if (← get).isDone then return finish none else return finish (some (← Expression.parse))
  | .equ => if labelled then return define (← Expression.parse) else throw .missingName

def parse (labelled : Bool) : Parser (Option Statement) := do
  match (← get).kind? with
  | none => return none
  | some (.mnemonic m) =>
    let _ ← Parser.next?
    return some (instruction m (← Operand.parse))
  | some (.directive d) =>
    let _ ← Parser.next?
    return some (← parseDirective labelled d)
  | some (.label name) => throw (.unknownMnemonic name)
  | some kind => if kind.isTrivia then return none else Parser.unexpected

end Statement

end B33.Source
