import B33.Source.Error
import B33.Source.Token
import B33.Text.Lines

/-!
# From text to tokens

A line is read from left to right, one token at a time. `scan` says which token a rest of a line
starts with and how many characters the token has after its first, so every token takes at least one
character. Words, numbers and runs of blanks are as long as they can be.
-/

namespace B33.Source

def isLineBlank (c : Char) : Bool := c == ' ' || c == '\t' || c == '\r'

def isWordChar (c : Char) : Bool := c.isAlphanum || c == '_'

/-- A number with the given digits. `written` is the whole token, for the error. -/
def numberKind (radix : Radix) (digits written : List Char) : Except Cause TokenKind :=
  match Numeral.value? radix.base digits with
  | some n => if n < Nat.pow 2 32 then .ok (.number radix n) else .error (.invalidNumber (.ofList written))
  | none => .error (.invalidNumber (.ofList written))

/-- A number whose digits follow a sign for its radix. The digits are all letters and digits that
follow, so a wrong one is an error and does not end the number. -/
def scanNumber (radix : Radix) (sign rest : List Char) : Except Cause (TokenKind × Nat) := do
  let digits := rest.takeWhile Char.isAlphanum
  let kind ← numberKind radix digits (sign ++ digits)
  return (kind, sign.length + digits.length - 1)

/-- The token that starts with `c`, and how many characters of `rest` belong to it. -/
def scan (c : Char) (rest : List Char) : Except Cause (TokenKind × Nat) :=
  if isLineBlank c then .ok (.blanks, (rest.takeWhile isLineBlank).length)
  else match c with
  | ';' => .ok (.comment (.ofList rest), rest.length)
  | ',' => .ok (.comma, 0)
  | '#' => .ok (.hash, 0)
  | '+' => .ok (.plus, 0)
  | '-' => .ok (.minus, 0)
  | ':' => .ok (.colon, 0)
  | '$' => scanNumber .hexadecimal ['$'] rest
  | '&' =>
    match rest with
    | 'H' :: digits => scanNumber .hexadecimal ['&', 'H'] digits
    | 'h' :: digits => scanNumber .hexadecimal ['&', 'h'] digits
    | _ => .error (.invalidNumber "&")
  | '%' => scanNumber .binary ['%'] rest
  | '"' =>
    let inner := rest.takeWhile (· != '"')
    if inner.length < rest.length then .ok (.text (.ofList inner), inner.length + 1)
    else .error .unterminatedString
  | c =>
    if c.isDigit then
      let more := rest.takeWhile Char.isAlphanum
      (numberKind .decimal (c :: more) (c :: more)).map (·, more.length)
    else if c.isAlpha || c == '_' then
      let more := rest.takeWhile isWordChar
      .ok (.ofWord (.ofList (c :: more)), more.length)
    else .error (.unexpectedCharacter c)

/-- The tokens of a rest of a line that starts at `column`, after those already found. -/
def scanOnto (line column : Nat) (found : Array Token) :
    List Char → Except SourceError (Array Token)
  | [] => .ok found
  | c :: rest =>
    match scan c rest with
    | .error cause => .error { line, cause }
    | .ok (kind, more) =>
      let token := { kind, text := .ofList (c :: rest.take more), line, column }
      scanOnto line (column + 1 + more) (found.push token) (rest.drop more)
termination_by cs => cs.length

/-- The tokens of one line. The text is taken as a single line, whatever is in it. -/
def tokenizeLine (number : Nat) (text : String) : Except SourceError (List Token) :=
  (scanOnto number 0 #[] text.toList).map Array.toList

/-- The tokens of the lines from `number` on, after those already found. A line's end stands right
of its last character. -/
def tokenizeOnto (number : Nat) (found : Array Token) :
    List String → Except SourceError (Array Token)
  | [] => .ok (found.push ⟨.endOfSource, "", 1, 0⟩)
  | [text] => do
    let tokens ← scanOnto number 0 #[] text.toList
    return (found ++ tokens).push ⟨.endOfSource, "", number, text.length⟩
  | text :: texts => do
    let tokens ← scanOnto number 0 #[] text.toList
    tokenizeOnto (number + 1) ((found ++ tokens).push ⟨.newline, "\n", number, text.length⟩) texts

def tokenize (source : String) : Except SourceError (List Token) :=
  (tokenizeOnto 1 #[] (splitLines source)).map Array.toList

end B33.Source
