import B33.Register

/-!
# Mnemonics

Most mnemonics come in families that differ in the register they work on. Which registers a family
has depends on the family: loads and their like take any register, arithmetic takes `A`, `B` and
`D`, and the byte operations take `A` and `B`. The types below admit exactly the existing ones.
-/

namespace B33

inductive ByteRegister where
  | a | b
  deriving DecidableEq, Repr

inductive Accumulator where
  | a | b | d
  deriving DecidableEq, Repr

def ByteRegister.register : ByteRegister → Register
  | a => .a
  | b => .b

def Accumulator.register : Accumulator → Register
  | a => .a
  | b => .b
  | d => .d

inductive Arithmetic where
  | add | sub
  deriving DecidableEq, Repr

inductive Bitwise where
  | and | or | eor
  deriving DecidableEq, Repr

inductive Unary where
  | com | lsl | lsr
  deriving DecidableEq, Repr

inductive Transfer where
  | ab | ba | xy | yx | dx | xd | dy | yd
  deriving DecidableEq, Repr

inductive Condition where
  | always | equal | notEqual | carrySet | carryClear | negative | positive | overflowSet
  | overflowClear | greater | less | greaterOrEqual | lessOrEqual
  deriving DecidableEq, Repr

inductive Mnemonic where
  | hlt | nop | ret | clc | sec
  | load (r : Register)
  | store (r : Register)
  | arithmetic (op : Arithmetic) (r : Accumulator)
  | bitwise (op : Bitwise) (r : ByteRegister)
  | compare (r : Register)
  | jmp | call
  | inc (r : Register)
  | dec (r : Register)
  | clr (r : Accumulator)
  | unary (op : Unary) (r : ByteRegister)
  | transfer (t : Transfer)
  | push (r : Register)
  | pop (r : Register)
  | branch (c : Condition)
  deriving DecidableEq, Repr

namespace Transfer

def source : Transfer → Register
  | ab => .a
  | ba => .b
  | xy | xd => .x
  | yx | yd => .y
  | dx | dy => .d

def destination : Transfer → Register
  | ab => .b
  | ba => .a
  | xy | dy => .y
  | yx | dx => .x
  | xd | yd => .d

def all : List Transfer := [ab, ba, xy, yx, dx, xd, dy, yd]

end Transfer

namespace Condition

def name : Condition → String
  | always => "BRA"
  | equal => "BEQ"
  | notEqual => "BNE"
  | carrySet => "BCS"
  | carryClear => "BCC"
  | negative => "BMI"
  | positive => "BPL"
  | overflowSet => "BVS"
  | overflowClear => "BVC"
  | greater => "BGT"
  | less => "BLT"
  | greaterOrEqual => "BGE"
  | lessOrEqual => "BLE"

def all : List Condition :=
  [always, equal, notEqual, carrySet, carryClear, negative, positive, overflowSet, overflowClear,
    greater, less, greaterOrEqual, lessOrEqual]

end Condition

namespace Mnemonic

def name : Mnemonic → String
  | hlt => "HLT"
  | nop => "NOP"
  | ret => "RET"
  | clc => "CLC"
  | sec => "SEC"
  | load r => "LD" ++ r.name
  | store r => "ST" ++ r.name
  | arithmetic .add r => "ADD" ++ r.register.name
  | arithmetic .sub r => "SUB" ++ r.register.name
  | bitwise .and r => "AND" ++ r.register.name
  | bitwise .or r => "OR" ++ r.register.name
  | bitwise .eor r => "EOR" ++ r.register.name
  | compare r => "CMP" ++ r.name
  | jmp => "JMP"
  | call => "CALL"
  | inc r => "INC" ++ r.name
  | dec r => "DEC" ++ r.name
  | clr r => "CLR" ++ r.register.name
  | unary .com r => "COM" ++ r.register.name
  | unary .lsl r => "LSL" ++ r.register.name
  | unary .lsr r => "LSR" ++ r.register.name
  | transfer t => "T" ++ t.source.name ++ t.destination.name
  | push r => "PUSH" ++ r.name
  | pop r => "POP" ++ r.name
  | branch c => c.name

/-- Every mnemonic, family by family. -/
def all : List Mnemonic :=
  [hlt, nop, ret, clc, sec] ++ Register.all.map load ++ Register.all.map store ++
    [Arithmetic.add, .sub].flatMap (fun op => [Accumulator.a, .b, .d].map (arithmetic op)) ++
    [Bitwise.and, .or, .eor].flatMap (fun op => [ByteRegister.a, .b].map (bitwise op)) ++
    Register.all.map compare ++ [jmp, call] ++ Register.all.map inc ++ Register.all.map dec ++
    [Accumulator.a, .b, .d].map clr ++
    [Unary.com, .lsl, .lsr].flatMap (fun op => [ByteRegister.a, .b].map (unary op)) ++
    Transfer.all.map transfer ++ Register.all.map push ++ Register.all.map pop ++
    Condition.all.map branch

def named : List (String × Mnemonic) := all.map fun m => (m.name, m)

def ofName? (s : String) : Option Mnemonic := named.lookup (s.map Char.toUpper)

def unknownMessage (s : String) : String := "Undefined mnemonic: " ++ s

def isBranch : Mnemonic → Bool
  | branch _ => true
  | _ => false

/-- The register a family works on. Transfers name two and belong to no such family. -/
def register? : Mnemonic → Option Register
  | load r | store r | compare r | inc r | dec r | push r | pop r => some r
  | arithmetic _ r | clr r => some r.register
  | bitwise _ r | unary _ r => some r.register
  | _ => none

def transfer? : Mnemonic → Option (Register × Register)
  | transfer t => some (t.source, t.destination)
  | _ => none

end Mnemonic

end B33
