import B33.Text.Numeral

/-!
# Decimal fractions

A decimal fraction is written with a point, an exponent, or both: `1.5`, `.5`, `15e-1`. It is shown
with a point and without an exponent, and without digits that change nothing.
-/

namespace B33

/-- A decimal fraction: a whole number times a power of ten. -/
structure Decimal where
  negative : Bool
  whole : Nat
  exponent : Int
  deriving DecidableEq, Repr

namespace Decimal

/-- An exponent, which is empty or a letter and an integer. -/
def exponent? : List Char → Option Int
  | [] => some 0
  | e :: cs =>
    if e = 'e' || e = 'E' then
      match cs with
      | '-' :: ds => (Numeral.value? 10 ds).map fun n => -(n : Int)
      | '+' :: ds => (Numeral.value? 10 ds).map fun n => (n : Int)
      | ds => (Numeral.value? 10 ds).map fun n => (n : Int)
    else none

def ofUnsigned? (negative : Bool) (cs : List Char) : Option Decimal :=
  let front := cs.takeWhile Char.isDigit
  let rest := cs.dropWhile Char.isDigit
  let (back, rest) := match rest with
    | '.' :: rest => (rest.takeWhile Char.isDigit, rest.dropWhile Char.isDigit)
    | rest => ([], rest)
  match Numeral.value? 10 (front ++ back), exponent? rest with
  | some whole, some e => some { negative, whole, exponent := e - back.length }
  | _, _ => none

def ofChars? : List Char → Option Decimal
  | '-' :: cs => ofUnsigned? true cs
  | '+' :: cs => ofUnsigned? false cs
  | cs => ofUnsigned? false cs

/-- The number of digits before the point, which is negative if zeros follow it first. -/
def magnitude (d : Decimal) : Int := (Numeral.digits 10 d.whole).length + d.exponent

/-- Whether a fraction is within the range of double precision. -/
def isFinite (d : Decimal) : Bool :=
  d.whole = 0 || d.magnitude ≤ 308 ||
    (d.magnitude = 309 &&
      d.whole * Nat.pow 10 d.exponent.toNat <
        (Nat.pow 2 1024 - Nat.pow 2 970) * Nat.pow 10 (-d.exponent).toNat)

/-- Whether a fraction is nothing in double precision. -/
def isVanishing (d : Decimal) : Bool := d.whole = 0 || d.magnitude < -323

def text (d : Decimal) : String :=
  let sign := if d.negative then "-" else ""
  if d.isVanishing then sign ++ "0.0"
  else
    let ds := Numeral.digits 10 d.whole ++ List.replicate d.exponent.toNat '0'
    let places := (-d.exponent).toNat
    let ds := List.replicate (places + 1 - ds.length) '0' ++ ds
    let back := ((ds.drop (ds.length - places)).reverse.dropWhile (· = '0')).reverse
    sign ++ String.ofList (ds.take (ds.length - places)) ++ "." ++
      String.ofList (if back.isEmpty then ['0'] else back)

end Decimal

end B33
