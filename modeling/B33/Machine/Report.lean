import B33.Machine
import B33.Text.Columns

/-!
# Printed machine state

Registers, stack and memory are printed as boxes of whole lines.
-/

namespace B33.Report

def registerRule : String := " +-----------+---------+---------+---------+\n"

def rule : String := " +-----------------------------------------+\n"

def registersText (r : RegisterFile) : String :=
  registerRule ++
    " |  pc: " ++ Numeral.word r.pc ++ " |  a: " ++ Numeral.byte r.a ++ "   |  b: " ++
    Numeral.byte r.b ++ "   | cc: " ++ r.flagsText ++ " |\n" ++
    " |   d: " ++ Numeral.word r.d ++ " |  x: " ++ Numeral.word r.x ++ " |  y: " ++
    Numeral.word r.y ++ " |         |\n" ++ registerRule

def stackText (stack : List UInt16) : String :=
  String.join (stack.mapIdx fun depth value =>
    " | sp-" ++ padRight 3 (Numeral.decimal depth) ++ " : " ++ Numeral.word value ++
      "                          |\n") ++ rule

def memoryText (b : Bus) (addresses : List UInt16) : String :=
  String.join (addresses.map fun address =>
    " | " ++ Numeral.word address ++ " : " ++ Numeral.byte (b.inspect address) ++
      "                              |\n") ++ rule

end B33.Report
