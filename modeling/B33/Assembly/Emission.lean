import B33.Assembly.Layout
import B33.Executable
import B33.Text.Blank

/-!
# Emission

The second walk through a source turns each placed line into its bytes, now that every name is
known.
-/

namespace B33.Assembly

open Source

structure Emitted where
  bytes : List UInt8 := []
  entry : Option UInt16 := none
  secondMonitor : Bool := false
  deriving DecidableEq, Repr

def isOnSecondMonitor (address : Int) : Bool := 0xF000 ≤ address ∧ address ≤ 0xFFA2

def byteOf (value : Int) : Except Cause UInt8 := do
  checkRange value (-128) 0xFF
  return UInt8.ofInt value

def signedWordOf (value : Int) : Except Cause UInt16 := do
  checkRange value (-32768) 0xFFFF
  return UInt16.ofInt value

def addressOf (value : Int) : Except Cause UInt16 := do
  checkRange value 0 0xFFFF
  return UInt16.ofInt value

def displacementOf (next : Nat) (target : Int) : Except Cause UInt8 := do
  checkRange (target - next) (-128) 127
  return UInt8.ofInt (target - next)

def emitInstruction (symbols : Symbols) (address : UInt16) (i : Instruction) :
    Operand → Except Cause Emitted
  | .inherent => .ok { bytes := [i.opcode] }
  | .immediate e => do
    let value ← e.value symbols.value?
    if i.operandLength = 1 then return { bytes := [i.opcode, ← byteOf value] }
    else return { bytes := i.opcode :: Executable.wordBytes (← signedWordOf value) }
  | .address e => do
    let value ← e.value symbols.value?
    if i.mode = .relative then
      return { bytes := [i.opcode, ← displacementOf (address.toNat + i.length) value] }
    else
      let target ← addressOf value
      return { bytes := i.opcode :: Executable.wordBytes target,
               secondMonitor := isOnSecondMonitor value }
  | .indexed form => .ok { bytes := [i.opcode, form.encode] }

def emitStatement (symbols : Symbols) (address : UInt16) : Statement → Except Cause Emitted
  | .define _ => .ok {}
  | .instruction m operand => do
    let i ← instructionOf m operand
    emitInstruction symbols address i operand
  | .reserve count => do
    let n ← count.value symbols.value?
    return { bytes := List.replicate n.toNat 0 }
  | .string s => .ok { bytes := Executable.textBytes s ++ [0] }
  | .bytes values => do
    let bytes ← values.mapM fun e => do byteOf (← e.value symbols.value?)
    return { bytes }
  | .finish none => .ok { bytes := [Instruction.haltOpcode] }
  | .finish (some e) => do
    let entry ← addressOf (← e.value symbols.value?)
    return { bytes := [Instruction.haltOpcode], entry := some entry }

def emitLine (symbols : Symbols) (placed : PlacedLine) : Except SourceError Emitted :=
  match placed.line.statement with
  | none => .ok {}
  | some statement =>
    match emitStatement symbols placed.address statement with
    | .ok emitted => .ok emitted
    | .error cause => .error { line := placed.line.number, cause }

structure ListingLine where
  line : Line
  address : UInt16
  bytes : List UInt8
  deriving DecidableEq, Repr

namespace ListingLine

/-- The debug entry of a line that produced bytes. Line numbers past 65535 count as 65535. -/
def debugEntry? (l : ListingLine) : Option DebugEntry :=
  if l.bytes.isEmpty then none
  else some
    { address := l.address
      line := UInt16.ofNat (min l.line.number 0xFFFF)
      text := trimString l.line.source }

end ListingLine

structure Output where
  listing : Array ListingLine := #[]
  entry : UInt16
  secondMonitor : Bool
  deriving DecidableEq, Repr

def Output.push (symbols : Symbols) (out : Output) (placed : PlacedLine) :
    Except SourceError Output := do
  let emitted ← emitLine symbols placed
  return { listing := out.listing.push { placed with bytes := emitted.bytes }
           entry := emitted.entry.getD out.entry
           secondMonitor := out.secondMonitor || emitted.secondMonitor }

def Layout.emit (l : Layout) (start : Output) : Except SourceError Output :=
  l.lines.foldlM (Output.push l.symbols) start

end B33.Assembly
