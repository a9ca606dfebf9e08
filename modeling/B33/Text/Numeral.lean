/-!
# Positional numerals

Digits are `0` to `9` and then letters, so every base from 2 to 36 has its numerals. Writing uses
capital letters and no leading zeros; reading takes either case and any number of leading zeros.
-/

namespace B33.Numeral

/-- The digit that stands for `d`, a capital letter from ten on. -/
def digitChar (d : Nat) : Char :=
  if d < 10 then Char.ofNat (48 + d) else Char.ofNat (55 + d)

/-- What an ASCII digit or letter stands for: ten for `a` and `A`, thirty-five for `z` and `Z`. -/
def digitValue? (c : Char) : Option Nat :=
  if '0' ≤ c ∧ c ≤ '9' then some (c.toNat - 48)
  else if 'A' ≤ c ∧ c ≤ 'Z' then some (c.toNat - 55)
  else if 'a' ≤ c ∧ c ≤ 'z' then some (c.toNat - 87)
  else none

/-- The numeral of `n`, most significant digit first. Bases below 2 have only one-digit numerals. -/
def digits (base n : Nat) : List Char :=
  if _h : n < base ∨ base < 2 then [digitChar n]
  else digits base (n / base) ++ [digitChar (n % base)]
termination_by n
decreasing_by exact Nat.div_lt_self (by omega) (by omega)

/-- Reads further digits onto `acc`; `none` at the first character that is no digit of the base. -/
def readOnto? (base acc : Nat) : List Char → Option Nat
  | [] => some acc
  | c :: cs =>
    match digitValue? c with
    | some d => if d < base then readOnto? base (acc * base + d) cs else none
    | none => none

def value? (base : Nat) (cs : List Char) : Option Nat :=
  if cs.isEmpty then none else readOnto? base 0 cs

def decimal (n : Nat) : String := String.ofList (digits 10 n)

def integer (n : Int) : String :=
  if n < 0 then "-" ++ decimal n.natAbs else decimal n.natAbs

/-- The hexadecimal numeral of `n`, with leading zeros up to `width` digits. -/
def hex (width n : Nat) : String :=
  let ds := digits 16 n
  String.ofList (List.replicate (width - ds.length) '0' ++ ds)

def byte (b : UInt8) : String := hex 2 b.toNat

def word (w : UInt16) : String := hex 4 w.toNat

end B33.Numeral
