import B33.Assembly.Symbols
import B33.Log
import B33.Source.Line

/-!
# Layout

The first walk through a source gives each line its address and each name its value. How many bytes
a line takes depends on names only where bytes are reserved, and those have to be defined on earlier
lines. The walk ends with the first line that says `END`; what follows is never looked at.
-/

namespace B33.Assembly

open Source

def checkRange (value least greatest : Int) : Except Cause Unit :=
  if least ≤ value ∧ value ≤ greatest then .ok ()
  else .error (.outOfRange value least greatest)

def instructionOf (m : Mnemonic) (operand : Operand) : Except Cause Instruction :=
  match Instruction.lookup m (operand.mode m) with
  | some i => .ok i
  | none => .error (.invalidOperand m (operand.mode m))

def sizeOf (symbols : Symbols) : Statement → Except Cause Nat
  | .instruction m operand => (instructionOf m operand).map Instruction.length
  | .reserve count => do
    let n ← count.value symbols.value?
    checkRange n 0 0xFFFF
    return n.toNat
  | .string s => .ok (s.utf8ByteSize + 1)
  | .bytes values => .ok values.length
  | .finish _ => .ok 1
  | .define _ => .ok 0

structure PlacedLine where
  line : Line
  address : UInt16
  deriving DecidableEq, Repr

/-- What is known after a number of lines. -/
structure Layout where
  lines : Array PlacedLine := #[]
  symbols : Symbols := {}
  /-- The address after the last byte, which can be 65536. -/
  finish : Nat

namespace Layout

def start (origin : UInt16) : Layout := { finish := origin.toNat }

def placeDefinition (l : Layout) (line : Line) (value : Expression) : Except Cause Layout :=
  match l with
  | ⟨lines, symbols, finish⟩ => do
    let n ← value.value symbols.value?
    checkRange n (-32768) 0xFFFF
    let symbols ← symbols.defineConstant (line.label.getD "") n
    return ⟨lines.push { line, address := UInt16.ofNat finish }, symbols, finish⟩

/-- Places a line that takes `size` bytes. A label needs an address of its own, so it cannot stand
at the end of memory. -/
def placeSized (origin : UInt16) (l : Layout) (line : Line) (size : Nat) : Except Cause Layout :=
  match l with
  | ⟨lines, symbols, finish⟩ => do
    if 0x10000 < finish + size ∨ (line.label.isSome ∧ 0xFFFF < finish) then throw .addressOverflow
    if 0xFFFF < finish + size - origin.toNat then throw .programTooLarge
    let address := UInt16.ofNat finish
    let symbols ← match line.label with
      | some name => symbols.defineLabel name address
      | none => .ok symbols
    return ⟨lines.push { line, address }, symbols, finish + size⟩

def place (origin : UInt16) (l : Layout) (line : Line) : Except Cause Layout :=
  match line.statement with
  | some (.define value) => l.placeDefinition line value
  | some statement => do
    let size ← sizeOf l.symbols statement
    l.placeSized origin line size
  | none => l.placeSized origin line 0

def isLast (line : Line) : Bool :=
  match line.statement with
  | some (.finish _) => true
  | _ => false

/-- Places the lines from `number` on. -/
def placeAll (origin : UInt16) (number : Nat) (l : Layout) :
    List String → Except SourceError Layout
  | [] => .ok l
  | text :: texts => do
    let line ← Line.parse number text
    match l.place origin line with
    | .error cause => throw { line := number, cause }
    | .ok next => if isLast line then return next else placeAll origin (number + 1) next texts

def ofSource (origin : UInt16) (source : String) : Except SourceError Layout :=
  placeAll origin 1 (start origin) (splitLines source)

def record (l : Layout) : LogRecord where
  level := .debug
  message :=
    "pass 1: " ++ Numeral.decimal l.lines.size ++ " lines, " ++
      Numeral.decimal l.symbols.labels.size ++ " labels, " ++
      Numeral.decimal l.symbols.constants.size ++ " constants, ends at $" ++
      Numeral.hex 4 l.finish

end Layout

end B33.Assembly
