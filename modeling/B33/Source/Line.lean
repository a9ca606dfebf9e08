import B33.Source.Lexer
import B33.Source.Statement

/-!
# Lines of source text

A line has an optional label, an optional statement and an optional comment. A word is a label in
the first column, and elsewhere if a colon follows it.
-/

namespace B33.Source

structure Line where
  number : Nat
  label : Option String
  statement : Option Statement
  comment : Option String
  source : String
  deriving DecidableEq, Repr

namespace Line

def startsWithWord (ts : Cursor) : Bool :=
  match ts with
  | { kind := .label _, column := 0, .. } :: _ => true
  | _ => false

/-- Reads the label, if there is one, and its colon. -/
def parseLabel : Parser (Option String) := do
  let first := startsWithWord (← get)
  Parser.skipBlanks
  match ← get with
  | t :: rest =>
    match t.kind with
    | .label name =>
      if first || Cursor.kind? rest == some .colon then
        let _ ← Parser.next?
        let _ ← Parser.eat .colon
        return some name
      else return none
    | _ => return none
  | [] => return none

def parseParts : Parser (Option String × Option Statement × Option String) := do
  let label ← parseLabel
  Parser.skipBlanks
  let statement ← Statement.parse label.isSome
  Parser.skipBlanks
  if (← get).isDone then return (label, statement, (← get).comment?) else Parser.unexpected

def parse (number : Nat) (source : String) : Except SourceError Line := do
  let tokens ← tokenizeLine number source
  match parseParts.run tokens with
  | .ok ((label, statement, comment), _) => return { number, label, statement, comment, source }
  | .error cause => throw { line := number, cause }

end Line

end B33.Source
