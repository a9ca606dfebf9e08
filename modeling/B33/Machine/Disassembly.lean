import B33.IndexForm
import B33.Instruction
import B33.Machine

/-!
# Disassembly

The instruction at an address is written as source text. Nothing is read with a side effect, and
targets are written as addresses.
-/

namespace B33.Machine

def operandText (b : Bus) (address : UInt16) (i : Instruction) : String :=
  let next := address + 1
  match i.mode with
  | .inherent => ""
  | .immediate =>
    if i.operandLength = 1 then "#$" ++ Numeral.byte (b.inspect next)
    else "#$" ++ Numeral.word (b.inspectWord next)
  | .extended => "$" ++ Numeral.word (b.inspectWord next)
  | .relative =>
    "$" ++ Numeral.word (Instruction.branchTarget (address + 2) (b.inspect next))
  | .indexed =>
    match IndexForm.decode (b.inspect next) with
    | .ok form => form.text
    | .error e => e.message

def disassemble (m : Machine) (address : UInt16) : String :=
  let opcode := m.bus.inspect address
  match Instruction.decode opcode with
  | none => "??? $" ++ Numeral.byte opcode
  | some i =>
    if i.mode = .inherent then i.mnemonic.name
    else i.mnemonic.name ++ " " ++ operandText m.bus address i

end B33.Machine
