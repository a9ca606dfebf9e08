import B33.Bus
import B33.Text.Blank

/-!
# Screens

A screen shows 25 rows of 80 characters. A character takes two bytes, of which the first is the
character. After the characters come a byte that shows the cursor and a word with the number of its
cell.
-/

namespace B33.Screen

def columns : Nat := 80

def rows : Nat := 25

/-- How a byte is shown: an empty cell as a blank and what is no ASCII character as a dot. -/
def glyph (byte : UInt8) : Char :=
  if byte = 0 then ' '
  else if 0x20 ≤ byte ∧ byte ≤ 0x7E then Char.ofNat byte.toNat
  else '.'

def rowChars (b : Bus) (base : UInt16) (row : Nat) : List Char :=
  (List.range columns).map fun column =>
    glyph (b.inspect (base + UInt16.ofNat ((row * columns + column) * 2)))

/-- The rows of the screen at a base address, without blanks at their ends. -/
def text (b : Bus) (base : UInt16) : List String :=
  (List.range rows).map fun row => String.ofList (trimEnd (rowChars b base row))

def shown (b : Bus) (base : UInt16) : List (Nat × String) :=
  ((text b base).mapIdx fun i row => (i, row)).filter fun (_, row) => !row.isEmpty

def cursorOffset : UInt16 := 4000

def cursor? (b : Bus) (base : UInt16) : Option UInt16 :=
  if b.inspect (base + cursorOffset) = 0 then none
  else some (b.inspectWord (base + cursorOffset + 1))

end B33.Screen
