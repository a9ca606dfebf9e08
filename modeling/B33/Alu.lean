import B33.Register

/-!
# Arithmetic and logic

Each operation answers with a value and with the condition codes it touches. Operands are cut to
the width of the operation first.
-/

namespace B33

inductive Width where
  | byte | word
  deriving DecidableEq, Repr

namespace Width

def bits : Width → Nat
  | byte => 8
  | word => 16

/-- The number of values, which is where arithmetic wraps. -/
def modulus (w : Width) : Nat := Nat.pow 2 w.bits

/-- The least value whose top bit is set. -/
def sign (w : Width) : Nat := Nat.pow 2 (w.bits - 1)

def ofRegister (r : Register) : Width := if r.isWide then word else byte

def cut (w : Width) (v : UInt16) : Nat := v.toNat % w.modulus

def isNegative (w : Width) (n : Nat) : Bool := w.sign ≤ n

end Width

/-- A change of condition codes: each code is set, cleared, or left alone. -/
structure FlagChange where
  carry : Option Bool := none
  zero : Option Bool := none
  negative : Option Bool := none
  overflow : Option Bool := none
  deriving DecidableEq, Repr

namespace FlagChange

/-- Sets, clears or keeps one bit of a condition-code byte. -/
def applyBit (f : Flag) (change : Option Bool) (cc : UInt8) : UInt8 :=
  match change with
  | some true => cc ||| f.mask
  | some false => cc &&& ~~~f.mask
  | none => cc

def apply (u : FlagChange) (cc : UInt8) : UInt8 :=
  applyBit .overflow u.overflow <| applyBit .negative u.negative <|
    applyBit .zero u.zero <| applyBit .carry u.carry cc

/-- The zero and negative codes that describe a value of the given width. -/
def describing (w : Width) (n : Nat) : FlagChange :=
  { zero := some (n == 0), negative := some (w.isNegative n) }

end FlagChange

namespace Alu

inductive Operation where
  | add | sub | and | or | eor
  deriving DecidableEq, Repr

structure Result where
  value : UInt16
  flags : FlagChange
  deriving DecidableEq, Repr

/-- The condition codes of a value that is moved into a register. -/
def load (w : Width) (value : UInt16) : FlagChange :=
  { FlagChange.describing w (w.cut value) with overflow := some false }

/-- Addition. Overflow is the case of two operands of one sign and a sum of the other. -/
def add (w : Width) (x y : UInt16) : Result :=
  let a := w.cut x
  let b := w.cut y
  let sum := (a + b) % w.modulus
  { value := UInt16.ofNat sum
    flags :=
      { FlagChange.describing w sum with
        carry := some (w.modulus ≤ a + b)
        overflow := some
          (w.isNegative a == w.isNegative b && w.isNegative sum != w.isNegative a) } }

/-- Subtraction, with a borrow as carry. Overflow is the case of two operands of different signs
and a difference whose sign is not that of the first. -/
def sub (w : Width) (x y : UInt16) : Result :=
  let a := w.cut x
  let b := w.cut y
  let difference := (a + w.modulus - b) % w.modulus
  { value := UInt16.ofNat difference
    flags :=
      { FlagChange.describing w difference with
        carry := some (a < b)
        overflow := some
          (w.isNegative a != w.isNegative b && w.isNegative difference != w.isNegative a) } }

/-- A bitwise operation, which leaves the carry alone and clears the overflow. -/
def bitwise (f : Nat → Nat → Nat) (w : Width) (x y : UInt16) : Result :=
  let value := UInt16.ofNat (f (w.cut x) (w.cut y))
  { value, flags := load w value }

def run : Operation → Width → UInt16 → UInt16 → Result
  | .add => add
  | .sub => sub
  | .and => bitwise (· &&& ·)
  | .or => bitwise (· ||| ·)
  | .eor => bitwise (· ^^^ ·)

/-- Adds one and leaves the carry alone. -/
def inc (w : Width) (x : UInt16) : Result :=
  let a := w.cut x
  let sum := (a + 1) % w.modulus
  { value := UInt16.ofNat sum
    flags := { FlagChange.describing w sum with overflow := some (a == w.sign - 1) } }

/-- Subtracts one and leaves the carry alone. -/
def dec (w : Width) (x : UInt16) : Result :=
  let a := w.cut x
  let difference := (a + w.modulus - 1) % w.modulus
  { value := UInt16.ofNat difference
    flags := { FlagChange.describing w difference with overflow := some (a == w.sign) } }

/-- Zero, with every condition code settled. -/
def clr : Result :=
  { value := 0
    flags :=
      { carry := some false, zero := some true, negative := some false, overflow := some false } }

def com (x : UInt16) : Result :=
  let value := ~~~(lowByte x)
  { value := value.toUInt16
    flags :=
      { FlagChange.describing .byte value.toNat with carry := some true, overflow := some false } }

/-- Shifts a byte left; the top bit goes to the carry. -/
def lsl (x : UInt16) : Result :=
  let a := (lowByte x).toNat
  let value := a * 2 % 256
  { value := UInt16.ofNat value
    flags :=
      { FlagChange.describing .byte value with
        carry := some (Width.byte.isNegative a)
        overflow := some (Width.byte.isNegative value ^^ Width.byte.isNegative a) } }

/-- Shifts a byte right; the low bit goes to the carry. -/
def lsr (x : UInt16) : Result :=
  let a := (lowByte x).toNat
  let value := a / 2
  { value := UInt16.ofNat value
    flags := { FlagChange.describing .byte value with carry := some (a % 2 == 1) } }

end Alu

end B33
