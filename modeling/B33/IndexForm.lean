import B33.Register

/-!
# The index byte

An indexed operand names an index register, perhaps an offset register, and perhaps a step that
moves the index register before or after the address is taken from it. One byte encodes it: three
bits for the offset register, two for the index register, and three for the step. Each of the three
fields has a table, and every pattern outside the tables is illegal.
-/

namespace B33

/-- How the index register moves when the address of an access is formed, before the access. -/
inductive IndexStep where
  | none
  /-- The register grows by the amount once the address is taken from it. -/
  | inc (amount : UInt8)
  /-- The register shrinks by the amount, and the address is taken from it then. -/
  | dec (amount : UInt8)
  deriving DecidableEq, Repr

namespace IndexStep

/-- The amount by which the register moves, if it does. -/
def amount? : IndexStep → Option UInt8
  | .none => Option.none
  | .inc n | .dec n => some n

end IndexStep

inductive IndexError where
  | illegalByte (byte : UInt8)
  | notIndexRegister (r : Register)
  | notOffsetRegister (r : Register)
  | amount (n : UInt8)
  deriving DecidableEq, Repr

def IndexError.message : IndexError → String
  | illegalByte byte => "Illegal index byte: $" ++ Numeral.byte byte
  | notIndexRegister r => "Index register must be X or Y, found " ++ r.name
  | notOffsetRegister r => "Offset register must be A, B or D, found " ++ r.name
  | amount n =>
    "Increment/decrement amount must be 1 or 2, found " ++ Numeral.decimal n.toNat

structure IndexForm where
  index : Register
  offset : Option Register := none
  step : IndexStep := .none
  deriving DecidableEq, Repr

namespace IndexForm

def isIndex : Register → Bool
  | .x | .y => true
  | _ => false

def isOffset : Register → Bool
  | .a | .b | .d => true
  | _ => false

def isAmount (n : UInt8) : Bool := n == 1 || n == 2

/-- The form with the given parts, if the parts are legal. The index register is looked at first and
the amount last. -/
def ofParts (index : Register) (offset : Option Register) (step : IndexStep) :
    Except IndexError IndexForm :=
  if !isIndex index then .error (.notIndexRegister index)
  else
    match offset.filter (!isOffset ·), step.amount?.filter (!isAmount ·) with
    | some r, _ => .error (.notOffsetRegister r)
    | none, some n => .error (.amount n)
    | none, none => .ok { index, offset, step }

def indexBits : List (UInt8 × Register) := [(0x08, .x), (0x10, .y)]

def offsetBits : List (UInt8 × Option Register) :=
  [(0x00, none), (0x01, some .a), (0x02, some .b), (0x04, some .d)]

def stepBits : List (UInt8 × IndexStep) :=
  [(0x00, .none), (0x20, .inc 1), (0xA0, .inc 2), (0x40, .dec 1), (0xC0, .dec 2)]

/-- The bits of the index register; only `Y` differs. -/
def indexCode : Register → UInt8
  | .y => 0x10
  | _ => 0x08

/-- The bits of the offset register; what is no offset register has none. -/
def offsetCode : Option Register → UInt8
  | some .a => 0x01
  | some .b => 0x02
  | some .d => 0x04
  | _ => 0x00

/-- The bits of the step; every amount but one counts as two. -/
def stepCode : IndexStep → UInt8
  | .none => 0x00
  | .inc n => if n = 1 then 0x20 else 0xA0
  | .dec n => if n = 1 then 0x40 else 0xC0

def encode (f : IndexForm) : UInt8 := indexCode f.index ||| offsetCode f.offset ||| stepCode f.step

/-- The form that a byte encodes, if its three fields are legal. -/
def decode (byte : UInt8) : Except IndexError IndexForm :=
  match indexBits.lookup (byte &&& 0x18), offsetBits.lookup (byte &&& 0x07),
      stepBits.lookup (byte &&& 0xE0) with
  | some index, some offset, some step => .ok { index, offset, step }
  | _, _, _ => .error (.illegalByte byte)

def signs (sign : Char) (n : UInt8) : String := String.ofList (List.replicate n.toNat sign)

def text (f : IndexForm) : String :=
  (f.offset.map Register.name).getD "" ++ "," ++
    match f.step with
    | .none => f.index.name
    | .inc n => f.index.name ++ signs '+' n
    | .dec n => signs '-' n ++ f.index.name

end IndexForm

end B33
