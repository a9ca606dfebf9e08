import B33.Text.Numeral

/-!
# Registers

The processor has two byte registers, `A` and `B`, which together form the word register `D` with
`A` as its high half, the word registers `X` and `Y`, the program counter, and a byte of condition
codes. `D` is a view: only its halves are stored.
-/

namespace B33

inductive Register where
  | a | b | d | x | y
  deriving DecidableEq, Repr

namespace Register

def all : List Register := [a, b, d, x, y]

def name : Register → String
  | a => "A"
  | b => "B"
  | d => "D"
  | x => "X"
  | y => "Y"

def isWide : Register → Bool
  | a | b => false
  | d | x | y => true

def ofName? (s : String) : Option Register :=
  let upper := s.map Char.toUpper
  all.find? (·.name == upper)

def unknownMessage (s : String) : String := "Unknown reg name: " ++ s

end Register

inductive Flag where
  | carry | zero | negative | overflow
  deriving DecidableEq, Repr

namespace Flag

def mask : Flag → UInt8
  | carry => 0x01
  | zero => 0x02
  | negative => 0x04
  | overflow => 0x08

def name : Flag → String
  | carry => "Carry"
  | zero => "Zero"
  | negative => "Negative"
  | overflow => "Overflow"

def letter : Flag → Char
  | carry => 'C'
  | zero => 'Z'
  | negative => 'N'
  | overflow => 'V'

def all : List Flag := [carry, zero, negative, overflow]

def ofByte? (b : UInt8) : Option Flag := all.find? (·.mask == b)

def unknownMessage (b : UInt8) : String :=
  "No discriminant in enum `Flag` matches the value `" ++ Numeral.decimal b.toNat ++ "`"

end Flag

def wordOf (high low : UInt8) : UInt16 := high.toUInt16 <<< 8 ||| low.toUInt16

def highByte (w : UInt16) : UInt8 := (w >>> 8).toUInt8

def lowByte (w : UInt16) : UInt8 := w.toUInt8

structure RegisterFile where
  a : UInt8 := 0
  b : UInt8 := 0
  x : UInt16 := 0
  y : UInt16 := 0
  pc : UInt16 := 0
  cc : UInt8 := 0
  deriving DecidableEq, Repr

namespace RegisterFile

/-- The word formed by `A` and `B`. -/
def d (r : RegisterFile) : UInt16 := wordOf r.a r.b

/-- The contents of a register, a byte extended with zeros. -/
def get (r : RegisterFile) : Register → UInt16
  | .a => r.a.toUInt16
  | .b => r.b.toUInt16
  | .d => r.d
  | .x => r.x
  | .y => r.y

/-- Sets a register; a byte register takes the low byte of the value. -/
def set (r : RegisterFile) (reg : Register) (value : UInt16) : RegisterFile :=
  match reg with
  | .a => { r with a := lowByte value }
  | .b => { r with b := lowByte value }
  | .d => { r with a := highByte value, b := lowByte value }
  | .x => { r with x := value }
  | .y => { r with y := value }

def flag (r : RegisterFile) (f : Flag) : Bool := r.cc &&& f.mask != 0

def setFlag (r : RegisterFile) (f : Flag) (on : Bool) : RegisterFile :=
  { r with cc := if on then r.cc ||| f.mask else r.cc &&& ~~~f.mask }

def flagsText (r : RegisterFile) : String :=
  String.ofList <| [Flag.negative, .overflow, .zero, .carry].map fun f =>
    if r.flag f then f.letter else '-'

def text (r : RegisterFile) : String :=
  "A=" ++ Numeral.byte r.a ++ " B=" ++ Numeral.byte r.b ++ " D=" ++ Numeral.word r.d ++
    " X=" ++ Numeral.word r.x ++ " Y=" ++ Numeral.word r.y ++ " PC=" ++ Numeral.word r.pc ++
    " CC=" ++ r.flagsText

/-- The contents of a register by name, the program counter and the condition codes included. -/
def value? (r : RegisterFile) (name : String) : Option UInt16 :=
  match name.map Char.toUpper with
  | "PC" => some r.pc
  | "CC" => some r.cc.toUInt16
  | upper => (Register.ofName? upper).map r.get

end RegisterFile

end B33
