import B33.Yaml.Error

/-!
# Characters of YAML text

A character of a text knows its line and its column, since indentation tells what belongs together.
There are five line ends. Three of them are one and the same: carriage return, line feed, both of
them together, and next line all count as a line feed. The separators of lines and of paragraphs
end a line too and stay what they are.
-/

namespace B33.Yaml

structure Cell extends Mark where
  char : Char
  deriving DecidableEq, Repr

/-- Whether a character ends a line, once line feeds stand for what counts as one. -/
def isBreak (c : Char) : Bool := c == '\n' || c == '\u2028' || c == '\u2029'

def isGap (c : Char) : Bool := c == ' ' || c == '\t'

def isWhite (c : Char) : Bool := isGap c || isBreak c

/-- The characters of a text that begins at a place, with their places, and the place behind them.
The characters before them are in `done`, last one first. -/
def placeFrom (done : List Cell) (line column : Nat) : List Char → List Cell × Mark
  | [] => (done.reverse, ⟨line, column⟩)
  | '\r' :: '\n' :: cs => placeFrom (⟨⟨line, column⟩, '\n'⟩ :: done) (line + 1) 0 cs
  | c :: cs =>
    if c == '\r' || c == '\u0085' then placeFrom (⟨⟨line, column⟩, '\n'⟩ :: done) (line + 1) 0 cs
    else if isBreak c then placeFrom (⟨⟨line, column⟩, c⟩ :: done) (line + 1) 0 cs
    else placeFrom (⟨⟨line, column⟩, c⟩ :: done) line (column + 1) cs

/-- The place where a text goes on, given where it ends. -/
def markOf (finish : Mark) : List Cell → Mark
  | [] => finish
  | c :: _ => c.toMark

/-- Whether a character is a bracket or the comma between values in brackets. -/
def isFlowMark (c : Char) : Bool := c == ',' || c == '[' || c == ']' || c == '\x7b' || c == '\x7d'

/-- Whether a character has a meaning of its own where a value begins. A hyphen, a question mark and
a colon have one only if something separates them from what follows. -/
def isIndicator (c : Char) : Bool :=
  isFlowMark c || c == '#' || c == '&' || c == '*' || c == '!' || c == '|' || c == '>' ||
    c == '\'' || c == '"' || c == '%' || c == '@' || c == '\x60'

/-- Whether the text goes on with something that separates words, or ends. -/
def isSeparated : List Cell → Bool
  | [] => true
  | c :: _ => isWhite c.char

/-- Whether one character stands three times at the front of a line, as a word. -/
def isThrice (mark : Char) : List Cell → Bool
  | a :: b :: c :: rest =>
    a.column == 0 && a.char == mark && b.char == mark && c.char == mark && isSeparated rest
  | _ => false

def isDocumentMark (cs : List Cell) : Bool := isThrice '-' cs || isThrice '.' cs

end B33.Yaml
