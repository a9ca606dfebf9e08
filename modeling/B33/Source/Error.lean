import B33.IndexForm
import B33.Instruction

/-!
# Errors in source text

An error is a cause on a line.
-/

namespace B33.Source

inductive Cause where
  | unexpectedCharacter (c : Char)
  | unexpectedToken (text : String)
  | unexpectedEnd
  | bothSteps
  | missingOffset (symbol : String)
  | notExpression (text : String)
  | missingExpression
  | unknownMnemonic (word : String)
  | invalidOperand (m : Mnemonic) (mode : Mode)
  | invalidNumber (text : String)
  | unterminatedString
  | undefinedLabel (name : String)
  | redefinedLabel (name : String) (first : UInt16)
  | outOfRange (value least greatest : Int)
  | missingText
  | missingName
  | index (e : IndexError)
  | addressOverflow
  | programTooLarge
  /-- More signs than a byte can count. The run breaks off there and reports no error. -/
  | countOverflow
  deriving DecidableEq, Repr

def quoted (s : String) : String := "`" ++ s ++ "`"

def Cause.message : Cause → String
  | unexpectedCharacter c => "Syntax error: unexpected character " ++ quoted c.toString
  | unexpectedToken text => "Syntax error: unexpected " ++ quoted text
  | unexpectedEnd => "Syntax error: unexpected end of line"
  | bothSteps => "Syntax error: cannot both increment and decrement"
  | missingOffset symbol => "Syntax error: expected offset after " ++ quoted symbol
  | notExpression text => "Syntax error: expected expression, found " ++ quoted text
  | missingExpression => "Syntax error: expected expression"
  | unknownMnemonic word => "Unknown mnemonic: " ++ quoted word
  | invalidOperand m mode =>
    "Unrecognized mnemonic/operand combination: " ++ m.name ++ " (" ++ mode.name ++ ")"
  | invalidNumber text => "Invalid number: " ++ quoted text
  | unterminatedString => "Unterminated string"
  | undefinedLabel name => "Undefined label: " ++ quoted name
  | redefinedLabel name first =>
    "Re-defined label: " ++ quoted name ++ " (first defined at $" ++ Numeral.word first ++ ")"
  | outOfRange value least greatest =>
    "Value " ++ Numeral.integer value ++ " out of range " ++ Numeral.integer least ++ "..=" ++
      Numeral.integer greatest
  | missingText => "Invalid directive: STR expects a quoted string"
  | missingName => "Invalid directive: EQU without a name"
  | index e => "Illegal index operand: " ++ e.message
  | addressOverflow => "Program runs past $FFFF"
  | programTooLarge => "Program is larger than 65535 bytes"
  | countOverflow => "attempt to add with overflow"

end B33.Source

namespace B33

/-- A cause and the number of the line it is on, from 1 on. -/
structure SourceError where
  line : Nat
  cause : Source.Cause
  deriving DecidableEq, Repr

def SourceError.message (e : SourceError) : String :=
  "Line " ++ Numeral.decimal e.line ++ ": " ++ e.cause.message

end B33
