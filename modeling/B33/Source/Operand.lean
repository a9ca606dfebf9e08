import B33.Source.Expression

/-!
# Operands

An operand's form, with the mnemonic before it, settles the addressing mode.
-/

namespace B33.Source

inductive Operand where
  | inherent
  | immediate (e : Expression)
  | address (e : Expression)
  | indexed (form : IndexForm)
  deriving DecidableEq, Repr

namespace Operand

def mode (m : Mnemonic) : Operand → Mode
  | inherent => .inherent
  | immediate _ => .immediate
  | indexed _ => .indexed
  | address _ => if m.isBranch then .relative else .extended

def text : Operand → String
  | inherent => ""
  | immediate e => "#" ++ e.text
  | address e => e.text
  | indexed form => form.text

/-- The step that a number of minus signs and a number of plus signs stand for. -/
def stepOfSigns (minus plus : UInt8) : Except Cause IndexStep :=
  if minus = 0 then .ok (if plus = 0 then .none else .inc plus)
  else if plus = 0 then .ok (.dec minus)
  else .error .bothSteps

/-- Reads what follows the comma of an index operand: minus signs, a register, plus signs. -/
def parseIndex (offset : Option Register) : Parser Operand := do
  Parser.skipBlanks
  let minus ← Parser.countSigns .minus
  match (← get).kind? with
  | some (.register index) =>
    let _ ← Parser.next?
    let plus ← Parser.countSigns .plus
    let step ← stepOfSigns minus plus
    match IndexForm.ofParts index offset step with
    | .ok form => return indexed form
    | .error e => throw (.index e)
  | _ => Parser.unexpected

def parse : Parser Operand := do
  Parser.skipBlanks
  match (← get).kind? with
  | none => return inherent
  | some .hash =>
    let _ ← Parser.next?
    return immediate (← Expression.parse)
  | some .comma =>
    let _ ← Parser.next?
    parseIndex none
  | some (.register offset) =>
    let _ ← Parser.next?
    if ← Parser.eat .comma then parseIndex (some offset) else Parser.unexpected
  | some kind => if kind.isTrivia then return inherent else return address (← Expression.parse)

end Operand

end B33.Source
