import B33.IndexForm
import B33.Instruction
import B33.Machine

/-!
# Executing instructions

An instruction is first read, with its operand, and then performed. Reading settles the address that
the operand means, which for an indexed operand can move the index register. A stack fault is found
after reading and before anything is performed.
-/

namespace B33

/-- What an operand means. -/
inductive Argument where
  | none
  | value (v : UInt16)
  | address (a : UInt16)
  deriving DecidableEq, Repr

/-- The address meant, and zero if none is. -/
def Argument.effectiveAddress : Argument → UInt16
  | address a => a
  | _ => 0

/-- An instruction that has been read. -/
structure Prepared where
  address : UInt16
  instruction : Instruction
  argument : Argument
  deriving DecidableEq, Repr

/-- An instruction that has been executed. -/
structure Step where
  address : UInt16
  instruction : Instruction
  /-- The first address that it stored to. -/
  store : Option UInt16
  halted : Bool
  deriving DecidableEq, Repr

def Prepared.outcome (p : Prepared) : Step where
  address := p.address
  instruction := p.instruction
  store := match p.instruction.mnemonic with
    | .store _ => some p.argument.effectiveAddress
    | _ => none
  halted := p.instruction.mnemonic == .hlt

/-- The address that an indexed operand means, and the registers after its step. A decrement comes
before the address is formed and an increment after. -/
def IndexForm.resolve (f : IndexForm) (r : RegisterFile) : UInt16 × RegisterFile :=
  let offset (r : RegisterFile) : UInt16 := (f.offset.map r.get).getD 0
  match f.step with
  | .none => (r.get f.index + offset r, r)
  | .inc n => (r.get f.index + offset r, r.set f.index (r.get f.index + n.toUInt16))
  | .dec n =>
    let r := r.set f.index (r.get f.index - n.toUInt16)
    (r.get f.index + offset r, r)

def Condition.holds (r : RegisterFile) : Condition → Bool
  | always => true
  | equal => r.flag .zero
  | notEqual => !r.flag .zero
  | carrySet => r.flag .carry
  | carryClear => !r.flag .carry
  | negative => r.flag .negative
  | positive => !r.flag .negative
  | overflowSet => r.flag .overflow
  | overflowClear => !r.flag .overflow
  | greater => !r.flag .zero && r.flag .negative == r.flag .overflow
  | less => r.flag .negative != r.flag .overflow
  | greaterOrEqual => r.flag .negative == r.flag .overflow
  | lessOrEqual => r.flag .zero || r.flag .negative != r.flag .overflow

def Arithmetic.operation : Arithmetic → Alu.Operation
  | add => .add
  | sub => .sub

def Bitwise.operation : Bitwise → Alu.Operation
  | and => .and
  | or => .or
  | eor => .eor

def Unary.run : Unary → UInt16 → Alu.Result
  | com => Alu.com
  | lsl => Alu.lsl
  | lsr => Alu.lsr

namespace Machine

/-- Reads the bytes of an operand, none, one or two. -/
def fetchOperand (m : Machine) (length : Nat) : UInt16 × Machine :=
  match length with
  | 0 => (0, m)
  | 1 =>
    let (value, m) := m.fetch
    (value.toUInt16, m)
  | _ => m.fetchWord

/-- What an operand means, and the registers after it is read. The only operand that means nothing
is an illegal index byte. -/
def resolve (i : Instruction) (operand : UInt16) (r : RegisterFile) :
    Option (Argument × RegisterFile) :=
  match i.mode with
  | .inherent => some (.none, r)
  | .immediate => some (.value operand, r)
  | .extended => some (.address operand, r)
  | .relative => some (.address (Instruction.branchTarget r.pc (lowByte operand)), r)
  | .indexed =>
    match IndexForm.decode (lowByte operand) with
    | .ok form =>
      let (address, r) := form.resolve r
      some (.address address, r)
    | .error _ => none

/-- Reads the instruction at the program counter. -/
def prepare (m : Machine) : Except Fault Prepared × Machine :=
  let address := m.registers.pc
  let (opcode, m) := m.fetch
  match Instruction.decode opcode with
  | none => (.error (.unknownOpcode opcode address), m)
  | some i =>
    let (operand, m) := m.fetchOperand i.operandLength
    match resolve i operand m.registers with
    | none => (.error (.illegalIndex (lowByte operand) address), m)
    | some (argument, registers) =>
      (.ok { address, instruction := i, argument }, { m with registers })

/-- Whether an instruction would leave the stack too full, or take a word that is not there. -/
def stackFault? (m : Machine) (p : Prepared) : Option Fault :=
  match p.instruction.mnemonic with
  | .call | .push _ => if stackLimit ≤ m.stack.length then some (.stackOverflow p.address) else none
  | .ret | .pop _ => if m.stack.isEmpty then some (.stackUnderflow p.address) else none
  | _ => none

/-- The value of an operand: the operand itself, or what memory holds at its address. -/
def operandValue (m : Machine) (width : Width) : Argument → UInt16 × Machine
  | .none => (0, m)
  | .value v => (v, m)
  | .address a => m.read width a

/-- Performs an instruction that has been read. -/
def perform (m : Machine) (p : Prepared) : Machine :=
  let target := p.argument.effectiveAddress
  match p.instruction.mnemonic with
  | .hlt | .nop => m
  | .clc => { m with registers := m.registers.setFlag .carry false }
  | .sec => { m with registers := m.registers.setFlag .carry true }
  | .ret =>
    match m.stack with
    | address :: stack => { m with stack }.jump address
    | [] => m
  | .jmp => m.jump target
  | .call => { m with stack := m.registers.pc :: m.stack }.jump target
  | .load r =>
    let (value, m) := m.operandValue (.ofRegister r) p.argument
    (m.setRegister r value).setFlags (Alu.load (.ofRegister r) value)
  | .store r => m.write (.ofRegister r) target (m.registers.get r)
  | .arithmetic op r =>
    let width := Width.ofRegister r.register
    let (value, m) := m.operandValue width p.argument
    m.setResult r.register (Alu.run op.operation width (m.registers.get r.register) value)
  | .bitwise op r =>
    let width := Width.ofRegister r.register
    let (value, m) := m.operandValue width p.argument
    m.setResult r.register (Alu.run op.operation width (m.registers.get r.register) value)
  | .compare r =>
    let width := Width.ofRegister r
    let (value, m) := m.operandValue width p.argument
    m.setFlags (Alu.sub width (m.registers.get r) value).flags
  | .inc r => m.setResult r (Alu.inc (.ofRegister r) (m.registers.get r))
  | .dec r => m.setResult r (Alu.dec (.ofRegister r) (m.registers.get r))
  | .clr r => m.setResult r.register Alu.clr
  | .unary op r => m.setResult r.register (op.run (m.registers.get r.register))
  | .transfer t => m.setRegister t.destination (m.registers.get t.source)
  | .push r => { m with stack := m.registers.get r :: m.stack }
  | .pop r =>
    match m.stack with
    | value :: stack => { m with stack }.setRegister r value
    | [] => m
  | .branch c => if c.holds m.registers then m.jump target else m

/-- Executes the instruction at the program counter. A machine that faults has read the instruction
and performed nothing. -/
def step (m : Machine) : Except Fault Step × Machine :=
  match m.prepare with
  | (.error fault, m) => (.error fault, m)
  | (.ok p, m) =>
    match m.stackFault? p with
    | some fault => (.error fault, m)
    | none => (.ok p.outcome, m.perform p)

/-- Executes up to `bound` further instructions, after `done` of them, and stops at a halt or fault.
The answer is how many have been executed, and whether the last one halted. -/
def runFrom (done : Nat) : Nat → Machine → Except Fault (Nat × Bool) × Machine
  | 0, m => (.ok (done, false), m)
  | bound + 1, m =>
    match m.step with
    | (.error fault, m) => (.error fault, m)
    | (.ok s, m) => if s.halted then (.ok (done + 1, true), m) else runFrom (done + 1) bound m

def run (m : Machine) (bound : Nat) : Except Fault (Nat × Bool) × Machine := runFrom 0 bound m

/-- Whether the next instruction is a jump or branch that leaves the machine as it is. It does so if
it comes back to itself, moves no register on the way, and is read without taking a key. -/
def isStill (m : Machine) : Bool :=
  match m.prepare with
  | (.error _, _) => false
  | (.ok p, after) =>
    (p.instruction.mnemonic == .jmp || p.instruction.mnemonic.isBranch) &&
      (after.perform p).registers == m.registers && after.bus.keys == m.bus.keys

end Machine

end B33
