import B33.Text.Numeral

/-!
# Errors in YAML text

A text can be wrong as a sequence of octets, or in its form. An error knows where it has been found
and, if something was being read there, where that began.
-/

namespace B33

/-- A place in a text. Lines and columns count from zero. -/
structure Mark where
  line : Nat := 0
  column : Nat := 0
  deriving DecidableEq, Repr

namespace Mark

def next (m : Mark) : Mark := { m with column := m.column + 1 }

/-- The place where the next text would begin if every text began on a line of its own. -/
def nextLine (m : Mark) : Mark := if m.column = 0 then m else { line := m.line + 1 }

/-- The place in words, which count from one. The start of a text is not told. -/
def words (m : Mark) : String :=
  if m = {} then ""
  else
    " at line " ++ Numeral.decimal (m.line + 1) ++ " column " ++ Numeral.decimal (m.column + 1)

end Mark

inductive OctetFault where
  | notLeading
  | incomplete
  | notTrailing
  /-- A character is written with more octets than it needs. -/
  | tooMany
  | notCharacter
  | control
  deriving DecidableEq, Repr

def OctetFault.message : OctetFault → String
  | notLeading => "invalid leading UTF-8 octet"
  | incomplete => "incomplete UTF-8 octet sequence"
  | notTrailing => "invalid trailing UTF-8 octet"
  | tooMany => "invalid length of a UTF-8 sequence"
  | notCharacter => "invalid Unicode character"
  | control => "control characters are not allowed"

inductive FormFault where
  | noToken
  | noColon
  | itemNotAllowed
  | keyNotAllowed
  | valueNotAllowed
  | markInQuotes
  | openQuotes
  | unknownEscape
  | noHexadecimal
  | noCharacter
  | bareColon
  | tabIndentation
  | noValue (inFlow : Bool)
  | noItem
  | noKey
  | openSequence
  | openMapping
  deriving DecidableEq, Repr

namespace FormFault

def message : FormFault → String
  | noToken => "found character that cannot start any token"
  | noColon => "could not find expected ':'"
  | itemNotAllowed => "block sequence entries are not allowed in this context"
  | keyNotAllowed => "mapping keys are not allowed in this context"
  | valueNotAllowed => "mapping values are not allowed in this context"
  | markInQuotes => "found unexpected document indicator"
  | openQuotes => "found unexpected end of stream"
  | unknownEscape => "found unknown escape character"
  | noHexadecimal => "did not find expected hexdecimal number"
  | noCharacter => "found invalid Unicode character escape code"
  | bareColon => "found unexpected ':'"
  | tabIndentation => "found a tab character that violates indentation"
  | noValue _ => "did not find expected node content"
  | noItem => "did not find expected '-' indicator"
  | noKey => "did not find expected key"
  | openSequence => "did not find expected ',' or ']'"
  | openMapping => "did not find expected ',' or '\x7d'"

/-- What was being read when a fault was found, if it is told. -/
def context? : FormFault → Option String
  | noToken => some "while scanning for the next token"
  | noColon => some "while scanning a simple key"
  | itemNotAllowed | keyNotAllowed | valueNotAllowed => none
  | markInQuotes | openQuotes => some "while scanning a quoted scalar"
  | unknownEscape | noHexadecimal | noCharacter => some "while parsing a quoted scalar"
  | bareColon | tabIndentation => some "while scanning a plain scalar"
  | noValue inFlow =>
    some (if inFlow then "while parsing a flow node" else "while parsing a block node")
  | noItem => some "while parsing a block collection"
  | noKey => some "while parsing a block mapping"
  | openSequence => some "while parsing a flow sequence"
  | openMapping => some "while parsing a flow mapping"

end FormFault

inductive YamlError where
  /-- The octets at an offset are wrong. -/
  | octets (fault : OctetFault) (offset : Nat)
  /-- The form is wrong at a place. What was being read there began at another. -/
  | form (fault : FormFault) (mark start : Mark)
  | tooDeep (mark : Mark)
  | severalDocuments
  deriving DecidableEq, Repr

def YamlError.message : YamlError → String
  | octets fault offset =>
    fault.message ++ (if offset = 0 then "" else " at position " ++ Numeral.decimal offset)
  | form fault mark start =>
    fault.message ++ mark.words ++
      match fault.context? with
      | none => ""
      | some context => ", " ++ context ++ if start = mark then "" else start.words
  | tooDeep mark => "recursion limit exceeded" ++ mark.words
  | severalDocuments =>
    "deserializing from YAML containing more than one document is not supported"

end B33
