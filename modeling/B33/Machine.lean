import B33.Alu
import B33.Bus

/-!
# The machine

A machine is its registers, a stack of at most 256 words that is apart from memory, and its bus.
-/

namespace B33

/-- Why an instruction cannot be executed, and the address where it stands. -/
inductive Fault where
  | unknownOpcode (opcode : UInt8) (address : UInt16)
  | illegalIndex (byte : UInt8) (address : UInt16)
  | stackOverflow (address : UInt16)
  | stackUnderflow (address : UInt16)
  deriving DecidableEq, Repr

namespace Fault

def address : Fault → UInt16
  | unknownOpcode _ a | illegalIndex _ a | stackOverflow a | stackUnderflow a => a

def message : Fault → String
  | unknownOpcode opcode a => "Unknown opcode $" ++ Numeral.byte opcode ++ " at $" ++ Numeral.word a
  | illegalIndex byte a =>
    "Illegal index byte $" ++ Numeral.byte byte ++ " at $" ++ Numeral.word a
  | stackOverflow a => "Stack overflow at $" ++ Numeral.word a
  | stackUnderflow a => "Stack underflow at $" ++ Numeral.word a

end Fault

/-- The state of a machine. -/
structure Machine where
  registers : RegisterFile := {}
  /-- The words on the stack, the last one pushed first. -/
  stack : List UInt16 := []
  bus : Bus := {}

namespace Machine

def stackLimit : Nat := 256

def standard : Machine := { bus := .standard }

/-- Clears the registers and the stack, and points the program counter at an entry. -/
def reset (m : Machine) (entry : UInt16) : Machine :=
  { m with registers := { pc := entry }, stack := [] }

/-- Writes a program to memory and resets the machine to its entry. -/
def load (m : Machine) (origin : UInt16) (bytes : List UInt8) (entry : UInt16) :
    Except BusError Machine :=
  match m.bus.load origin bytes with
  | .ok bus => .ok ({ m with bus }.reset entry)
  | .error e => .error e

def jump (m : Machine) (address : UInt16) : Machine :=
  { m with registers := { m.registers with pc := address } }

def setRegister (m : Machine) (r : Register) (value : UInt16) : Machine :=
  { m with registers := m.registers.set r value }

def setFlags (m : Machine) (change : FlagChange) : Machine :=
  { m with registers := { m.registers with cc := change.apply m.registers.cc } }

def setResult (m : Machine) (r : Register) (result : Alu.Result) : Machine :=
  (m.setRegister r result.value).setFlags result.flags

/-- Reads a byte, extended with zeros, or a word. -/
def read (m : Machine) (width : Width) (address : UInt16) : UInt16 × Machine :=
  match width with
  | .byte =>
    let (value, bus) := m.bus.peek address
    (value.toUInt16, { m with bus })
  | .word =>
    let (value, bus) := m.bus.peekWord address
    (value, { m with bus })

/-- Writes the low byte of a value, or all of it. -/
def write (m : Machine) (width : Width) (address value : UInt16) : Machine :=
  match width with
  | .byte => { m with bus := m.bus.poke address (lowByte value) }
  | .word => { m with bus := m.bus.pokeWord address value }

def fetch (m : Machine) : UInt8 × Machine :=
  let (value, bus) := m.bus.peek m.registers.pc
  (value, { m with bus, registers := { m.registers with pc := m.registers.pc + 1 } })

def fetchWord (m : Machine) : UInt16 × Machine :=
  let (low, m) := m.fetch
  let (high, m) := m.fetch
  (wordOf high low, m)

end Machine

end B33
