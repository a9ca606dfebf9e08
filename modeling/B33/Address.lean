import B33.Text.Numeral
import B33.Text.Blank

/-!
# Written addresses

An address outside source text, in settings and on the command line, is a numeral: hexadecimal
after `$`, `0x` or `&H`, and decimal otherwise. Blanks around it do not count, and one plus sign may
stand before the digits.
-/

namespace B33

def defaultOrigin : UInt16 := 0x4000

inductive AddressError where
  /-- The text, without the blanks around it, is not a numeral below 65536. -/
  | invalid (text : String)
  deriving DecidableEq, Repr

def AddressError.message : AddressError → String
  | .invalid text => "Invalid address: " ++ text

namespace Address

/-- The base a text announces, and what follows the announcement. -/
def announced : List Char → Nat × List Char
  | '$' :: cs => (16, cs)
  | '0' :: 'x' :: cs => (16, cs)
  | '0' :: 'X' :: cs => (16, cs)
  | '&' :: 'H' :: cs => (16, cs)
  | '&' :: 'h' :: cs => (16, cs)
  | cs => (10, cs)

/-- The text after one plus sign, if it starts with one. -/
def afterPlus : List Char → List Char
  | '+' :: cs => cs
  | cs => cs

/-- The word that a text without blanks around it denotes. -/
def value? (cs : List Char) : Option UInt16 :=
  let (base, ds) := announced cs
  match Numeral.value? base (afterPlus ds) with
  | some n => if n < 0x10000 then some (UInt16.ofNat n) else none
  | none => none

def parse (s : String) : Except AddressError UInt16 :=
  let cs := trim s.toList
  match value? cs with
  | some w => .ok w
  | none => .error (.invalid (String.ofList cs))

end Address

end B33
