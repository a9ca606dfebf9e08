import B33.Program
import B33.Instruction
import B33.IndexForm
import B33.Text.Blank
import B33.Text.Columns
import Std.Data.HashMap

/-!
# Analysis

A program is decoded from its first byte to its last. A byte that does not start a whole and legal
instruction is a byte of data. The decoded lines can be written as source text again: a label goes
where a line starts at its address, a target that has such a label is written as that, and a halt at
the end is written `END` where the entry would be lost without it.
-/

namespace B33

/-- A decoded instruction or byte of data, with the address of its first byte. -/
structure Decoded where
  address : UInt16
  /-- The instruction, or nothing for a byte of data. -/
  instruction : Option Instruction
  bytes : List UInt8
  deriving DecidableEq, Repr

structure AnalysedLine where
  address : UInt16
  bytes : List UInt8
  label : Option String
  /-- The instruction or directive, without label and comment. -/
  text : String
  description : String
  /-- The source line that the bytes came from, if the program tells. -/
  source : Option String
  deriving DecidableEq, Repr

def AnalysedLine.note (l : AnalysedLine) : String := l.source.getD l.description

namespace Analysis

def isOperand (i : Instruction) (operand : List UInt8) : Bool :=
  operand.length == i.operandLength &&
    match i.mode, operand with
    | .indexed, byte :: _ => (IndexForm.decode byte).isOk
    | _, _ => true

def instructionAt? (opcode : UInt8) (rest : List UInt8) : Option Instruction :=
  (Instruction.decode opcode).filter fun i => isOperand i (rest.take i.operandLength)

/-- The decoded bytes from an address on, after those already decoded. -/
def decodeOnto (address : UInt16) (found : Array Decoded) : List UInt8 → Array Decoded
  | [] => found
  | opcode :: rest =>
    let i := instructionAt? opcode rest
    let n := (i.map Instruction.operandLength).getD 0
    decodeOnto (address + UInt16.ofNat (n + 1))
      (found.push ⟨address, i, opcode :: rest.take n⟩) (rest.drop n)
termination_by bytes => bytes.length

def decode (p : Program) : List Decoded := (decodeOnto p.origin #[] p.bytes).toList

/-- The label that an address gets: the first that the program defines for it, if a line starts
there. -/
abbrev Placement := UInt16 → Option String

/-- The addresses where decoded lines start, as a table with a place for every address. -/
def boundaries (ds : List Decoded) : Vector Bool 65536 :=
  ds.foldl (fun v d => v.set d.address.toNat true d.address.toNat_lt) (Vector.replicate 65536 false)

def firstLabels (labels : LabelTable) : Std.HashMap UInt16 String :=
  labels.entries.foldl (fun m (name, address) => m.insertIfNew address name) {}

def firstEntries (p : Program) : Std.HashMap UInt16 DebugEntry :=
  p.debugEntries.foldl (fun m e => m.insertIfNew e.address e) {}

def targetText (placed : Placement) (address : UInt16) : String :=
  (placed address).getD ("$" ++ Numeral.word address)

def operandText (placed : Placement) (address : UInt16) (i : Instruction) :
    List UInt8 → String
  | [] => ""
  | [byte] =>
    match i.mode with
    | .relative =>
      targetText placed (Instruction.branchTarget (address + UInt16.ofNat i.length) byte)
    | .indexed =>
      match IndexForm.decode byte with
      | .ok form => form.text
      | .error _ => "$" ++ Numeral.byte byte
    | _ => "#$" ++ Numeral.byte byte
  | low :: high :: _ =>
    match i.mode with
    | .immediate => "#$" ++ Numeral.word (wordOf high low)
    | _ => targetText placed (wordOf high low)

def describe (placed : Placement) (d : Decoded) : String × String :=
  match d.instruction with
  | none => ("CHR $" ++ String.join (d.bytes.map Numeral.byte), "Data byte")
  | some i =>
    let operand := operandText placed d.address i d.bytes.tail
    (if operand.isEmpty then i.mnemonic.name else i.mnemonic.name ++ " " ++ operand,
      i.describe operand)

def lines (p : Program) : List AnalysedLine :=
  let ds := decode p
  let starts := boundaries ds
  let labels := firstLabels p.labels
  let entries := firstEntries p
  let placed : Placement := fun address =>
    if starts.get ⟨address.toNat, address.toNat_lt⟩ then labels[address]? else none
  ds.map fun d =>
    let (text, description) := describe placed d
    { address := d.address, bytes := d.bytes, label := placed d.address, text, description
      source := entries[d.address]?.map (·.text) }

/-- The name of the entry: its label, or else its address if that is not the origin. -/
def entryName? (p : Program) (ls : List AnalysedLine) : Option String :=
  match (ls.find? (·.address == p.entry)).bind (·.label) with
  | some label => some label
  | none => if p.entry = p.origin then none else some ("$" ++ Numeral.word p.entry)

def isHalt (l : AnalysedLine) : Bool := l.bytes == [Instruction.haltOpcode]

/-- Writes a halt on the last line as the end of the source, with the entry. -/
def nameEntry (entry : Option String) (ls : List AnalysedLine) : List AnalysedLine :=
  match entry, ls.getLast? with
  | some entry, some last =>
    if isHalt last then ls.dropLast ++ [{ last with text := "END " ++ entry }] else ls
  | _, _ => ls

/-- A decoded line as source text, below its label if it has one. -/
def sourceLine (l : AnalysedLine) : String :=
  let label := match l.label with
    | some name => name ++ "\n"
    | none => ""
  let body := "    " ++ padRight 16 l.text ++ "; " ++ l.note
  label ++ String.ofList (trimEnd body.toList) ++ "\n"

def toSource (p : Program) : String :=
  let ls := lines p
  let header :=
    "; origin $" ++ Numeral.word p.origin ++ ", entry $" ++ Numeral.word p.entry ++ "\n"
  header ++ String.join ((nameEntry (entryName? p ls) ls).map sourceLine)

end Analysis

end B33
