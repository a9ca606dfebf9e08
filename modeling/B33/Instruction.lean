import B33.Mnemonic
import B33.Alu

/-!
# The instruction set

An instruction is a mnemonic in one addressing mode, with an opcode and a number of operand bytes.
The whole set is one table. `decode` reads it by opcode and `lookup` by mnemonic and mode.
-/

namespace B33

inductive Mode where
  /-- The operand is the value. -/
  | immediate
  /-- The operand is an address. -/
  | extended
  /-- The operand is an index byte. -/
  | indexed
  /-- There is no operand. -/
  | inherent
  /-- The operand is a signed distance from the next instruction. -/
  | relative
  deriving DecidableEq, Repr

def Mode.name : Mode → String
  | immediate => "Immediate"
  | extended => "Extended"
  | indexed => "Indexed"
  | inherent => "Inherent"
  | relative => "Relative"

/-- A sentence with at most one place for an operand. -/
inductive Template where
  | plain (sentence : String)
  | around (before after : String)
  deriving DecidableEq, Repr

namespace Template

def fill (operand : String) : Template → String
  | plain s => s
  | around before after => before ++ operand ++ after

def text (t : Template) : String := t.fill "\x7b0\x7d"

end Template

/-- The operation as a verb phrase before its operand, and what follows the operand. -/
def Mnemonic.template : Mnemonic → Template
  | hlt => .plain "Halt the processor"
  | nop => .plain "No operation"
  | ret => .plain "Return from subroutine"
  | clc => .plain "Clear carry"
  | sec => .plain "Set carry"
  | load r => .around ("Load " ++ r.name ++ " with ") ""
  | store r => .around ("Store " ++ r.name ++ " at ") ""
  | arithmetic .add r => .around "Add " (" to " ++ r.register.name)
  | arithmetic .sub r => .around "Subtract " (" from " ++ r.register.name)
  | bitwise .and r => .around ("Bitwise AND " ++ r.register.name ++ " with ") ""
  | bitwise .or r => .around ("Bitwise OR " ++ r.register.name ++ " with ") ""
  | bitwise .eor r => .around ("Bitwise XOR " ++ r.register.name ++ " with ") ""
  | compare r => .around ("Compare " ++ r.name ++ " with ") ""
  | jmp => .around "Jump to " ""
  | call => .around "Call subroutine at " ""
  | inc r => .plain ("Increment " ++ r.name)
  | dec r => .plain ("Decrement " ++ r.name)
  | clr r => .plain ("Clear " ++ r.register.name)
  | unary .com r => .plain ("Complement " ++ r.register.name)
  | unary .lsl r => .plain ("Shift " ++ r.register.name ++ " left")
  | unary .lsr r => .plain ("Shift " ++ r.register.name ++ " right")
  | transfer t => .plain ("Copy " ++ t.source.name ++ " to " ++ t.destination.name)
  | push r => .plain ("Push " ++ r.name)
  | pop r => .plain ("Pop " ++ r.name)
  | branch .always => .around "Branch to " ""
  | branch .equal => .around "Branch to " " if equal"
  | branch .notEqual => .around "Branch to " " if not equal"
  | branch .carrySet => .around "Branch to " " if carry set"
  | branch .carryClear => .around "Branch to " " if carry clear"
  | branch .negative => .around "Branch to " " if negative"
  | branch .positive => .around "Branch to " " if positive"
  | branch .overflowSet => .around "Branch to " " if overflow set"
  | branch .overflowClear => .around "Branch to " " if overflow clear"
  | branch .greater => .around "Branch to " " if greater"
  | branch .less => .around "Branch to " " if less"
  | branch .greaterOrEqual => .around "Branch to " " if greater or equal"
  | branch .lessOrEqual => .around "Branch to " " if less or equal"

/-- A mnemonic in one addressing mode. -/
structure Instruction where
  mnemonic : Mnemonic
  mode : Mode
  opcode : UInt8
  /-- The number of bytes after the opcode. -/
  operandLength : Nat
  deriving DecidableEq, Repr

namespace Instruction

/-- The number of bytes, opcode included. -/
def length (i : Instruction) : Nat := 1 + i.operandLength

def describe (i : Instruction) (operand : String) : String := i.mnemonic.template.fill operand

def width (i : Instruction) : Width :=
  match i.mnemonic.register? with
  | some r => .ofRegister r
  | none => .byte

/-- Operations on a value, with the first opcode of each. -/
def dataFamilies : List (Mnemonic × UInt8) :=
  [(.load .a, 0x10), (.load .b, 0x14), (.load .d, 0x18), (.load .x, 0x1C), (.load .y, 0x20),
    (.arithmetic .add .a, 0x38), (.arithmetic .add .b, 0x3C), (.arithmetic .add .d, 0x40),
    (.arithmetic .sub .a, 0x44), (.arithmetic .sub .b, 0x48), (.arithmetic .sub .d, 0x4C),
    (.bitwise .and .a, 0x50), (.bitwise .and .b, 0x54), (.bitwise .or .a, 0x58),
    (.bitwise .or .b, 0x5C), (.bitwise .eor .a, 0x60), (.bitwise .eor .b, 0x64),
    (.compare .a, 0x68), (.compare .b, 0x6C), (.compare .d, 0x70), (.compare .x, 0x74),
    (.compare .y, 0x78)]

/-- Operations on an address, with the opcode below the first of each. -/
def addressFamilies : List (Mnemonic × UInt8) :=
  [(.store .a, 0x24), (.store .b, 0x28), (.store .d, 0x2C), (.store .x, 0x30), (.store .y, 0x34),
    (.jmp, 0x7C), (.call, 0x80)]

def inherents : List (Mnemonic × UInt8) :=
  [(.hlt, 0x01), (.nop, 0x02), (.ret, 0x03), (.clc, 0x04), (.sec, 0x05),
    (.inc .a, 0x90), (.inc .b, 0x91), (.inc .d, 0x92), (.inc .x, 0x93), (.inc .y, 0x94),
    (.dec .a, 0x95), (.dec .b, 0x96), (.dec .d, 0x97), (.dec .x, 0x98), (.dec .y, 0x99),
    (.clr .a, 0x9A), (.clr .b, 0x9B), (.clr .d, 0x9C), (.unary .com .a, 0x9D),
    (.unary .com .b, 0x9E), (.unary .lsl .a, 0x9F), (.unary .lsl .b, 0xA0),
    (.unary .lsr .a, 0xA1), (.unary .lsr .b, 0xA2),
    (.transfer .ab, 0xA8), (.transfer .ba, 0xA9), (.transfer .xy, 0xAA), (.transfer .yx, 0xAB),
    (.transfer .dx, 0xAC), (.transfer .xd, 0xAD), (.transfer .dy, 0xAE), (.transfer .yd, 0xAF),
    (.push .a, 0xB0), (.push .b, 0xB1), (.push .d, 0xB2), (.push .x, 0xB3), (.push .y, 0xB4),
    (.pop .a, 0xB5), (.pop .b, 0xB6), (.pop .d, 0xB7), (.pop .x, 0xB8), (.pop .y, 0xB9)]

def branches : List (Mnemonic × UInt8) :=
  [(.branch .always, 0xC0), (.branch .equal, 0xC1), (.branch .notEqual, 0xC2),
    (.branch .carrySet, 0xC3), (.branch .carryClear, 0xC4), (.branch .negative, 0xC5),
    (.branch .positive, 0xC6), (.branch .overflowSet, 0xC7), (.branch .overflowClear, 0xC8),
    (.branch .greater, 0xC9), (.branch .less, 0xCA), (.branch .greaterOrEqual, 0xCB),
    (.branch .lessOrEqual, 0xCC)]

def immediateLength (m : Mnemonic) : Nat :=
  match m.register? with
  | some r => if r.isWide then 2 else 1
  | none => 1

def addressForms (m : Mnemonic) (base : UInt8) : List Instruction :=
  [⟨m, .extended, base + 1, 2⟩, ⟨m, .indexed, base + 2, 1⟩]

def dataForms (m : Mnemonic) (base : UInt8) : List Instruction :=
  ⟨m, .immediate, base, immediateLength m⟩ :: addressForms m base

def table : List Instruction :=
  dataFamilies.flatMap (fun (m, base) => dataForms m base) ++
    addressFamilies.flatMap (fun (m, base) => addressForms m base) ++
    inherents.map (fun (m, opcode) => ⟨m, .inherent, opcode, 0⟩) ++
    branches.map (fun (m, opcode) => ⟨m, .relative, opcode, 1⟩)

def byOpcode : Vector (Option Instruction) 256 :=
  Vector.ofFn fun code => table.find? (·.opcode.toNat == code.val)

def decode (opcode : UInt8) : Option Instruction := byOpcode.get ⟨opcode.toNat, opcode.toNat_lt⟩

def lookup (m : Mnemonic) (mode : Mode) : Option Instruction :=
  table.find? fun i => i.mnemonic == m && i.mode == mode

def modes (m : Mnemonic) : List Mode := (table.filter (·.mnemonic == m)).map (·.mode)

def haltOpcode : UInt8 := 0x01

/-- Where a branch goes: its displacement is a signed byte, and `next` the address after it. -/
def branchTarget (next : UInt16) (displacement : UInt8) : UInt16 :=
  next + displacement.toInt8.toInt16.toUInt16

end Instruction

end B33
