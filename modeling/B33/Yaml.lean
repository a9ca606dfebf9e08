import B33.Text.Decimal
import B33.Text.Quoted
import B33.Yaml.Error

/-!
# YAML values

A value is a scalar, a sequence or a mapping, and knows where it begins. A scalar keeps its text and
whether it was quoted, since only a scalar without quotes can be a number, a truth value or nothing
at all.

A value can also be broken off: the text is wrong from there on. Whatever stands before can be used,
so a reader that takes a value apart from front to back meets the error in its place.
-/

namespace B33

inductive Yaml where
  | scalar (mark : Mark) (quoted : Bool) (text : String)
  | sequence (mark : Mark) (items : List Yaml)
  | mapping (mark : Mark) (pairs : List (Yaml × Yaml))
  | broken (e : YamlError)
  deriving Repr

namespace Yaml

/-- The value where none is written. -/
def absent (m : Mark) : Yaml := scalar m false ""

inductive Meaning where
  | nothing
  | truth (b : Bool)
  | integer (negative : Bool) (magnitude : Nat)
  /-- A number with a fraction, an exponent or too many digits, by the text that shows it. -/
  | fraction (shown : String)
  | text
  deriving DecidableEq, Repr

namespace Meaning

/-- The value of digits in the base that their first two characters name, which is ten unless they
are `0x`, `0o` or `0b`. Decimal numbers do not start with a needless zero. -/
def magnitude? : List Char → Option Nat
  | '0' :: 'x' :: ds => Numeral.value? 16 ds
  | '0' :: 'o' :: ds => Numeral.value? 8 ds
  | '0' :: 'b' :: ds => Numeral.value? 2 ds
  | '0' :: d :: ds => if (d :: ds).all Char.isDigit then none else Numeral.value? 10 ('0' :: d :: ds)
  | ds => Numeral.value? 10 ds

def integer? : List Char → Option Meaning
  | '-' :: cs => ((magnitude? cs).filter (· ≤ Nat.pow 2 127)).map (integer true)
  | '+' :: cs => ((magnitude? cs).filter (· < Nat.pow 2 128)).map (integer false)
  | cs => ((magnitude? cs).filter (· < Nat.pow 2 128)).map (integer false)

/-- Whether a text consists of digits and a sign but is no number, since it starts with a needless
zero. -/
def isPadded : List Char → Bool
  | '-' :: cs => isPadded' cs
  | '+' :: cs => isPadded' cs
  | cs => isPadded' cs
where
  /-- The same without a sign. -/
  isPadded' : List Char → Bool
    | '0' :: d :: ds => (d :: ds).all Char.isDigit
    | _ => false

def fraction? (s : String) : Option Meaning :=
  if [".inf", ".Inf", ".INF", "+.inf", "+.Inf", "+.INF"].contains s then some (fraction "inf")
  else if ["-.inf", "-.Inf", "-.INF"].contains s then some (fraction "-inf")
  else if [".nan", ".NaN", ".NAN"].contains s then some (fraction "NaN")
  else if isPadded s.toList then none
  else ((Decimal.ofChars? s.toList).filter (·.isFinite)).map fun d => fraction d.text

def of (s : String) : Meaning :=
  if s.isEmpty || s == "~" || s == "null" || s == "Null" || s == "NULL" then nothing
  else if s == "true" || s == "True" || s == "TRUE" then truth true
  else if s == "false" || s == "False" || s == "FALSE" then truth false
  else ((integer? s.toList).or (fraction? s)).getD text

def isWide : Meaning → Bool
  | integer true n => Nat.pow 2 63 < n
  | integer false n => Nat.pow 2 64 ≤ n
  | _ => false

def describe (s : String) : Meaning → String
  | nothing => "unit value"
  | truth b => "boolean \x60" ++ (if b then "true" else "false") ++ "\x60"
  | integer negative n =>
    let shown := "integer \x60" ++ (if negative && n != 0 then "-" else "") ++ Numeral.decimal n ++ "\x60"
    if (integer negative n).isWide then shown ++ (if negative then " as i128" else " as u128")
    else shown
  | fraction shown => "floating point \x60" ++ shown ++ "\x60"
  | text => "string " ++ Quoted.text s

end Meaning

def meaning? : Yaml → Option Meaning
  | scalar _ false s => some (.of s)
  | _ => none

def isNull (y : Yaml) : Bool := y.meaning? == some .nothing

def isAbsent : Yaml → Bool
  | scalar _ false s => s.isEmpty
  | _ => false

def mark : Yaml → Mark
  | scalar m .. | sequence m _ | mapping m _ => m
  | broken _ => {}

def describe : Yaml → String
  | scalar _ true s => "string " ++ Quoted.text s
  | scalar _ false s => (Meaning.of s).describe s
  | sequence .. => "sequence"
  | mapping .. => "map"
  | broken _ => ""

end Yaml

end B33
