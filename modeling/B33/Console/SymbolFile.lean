import B33.NameTable
import B33.Text.Numeral

/-!
# Symbol files

A symbol file is a YAML mapping of names to addresses. A name that YAML would read as something else
than text is quoted, and a name too long for a simple key stands behind a question mark.
-/

namespace B33.Console.SymbolFile

/-- The words that mean something else than their text. -/
def reserved : List String :=
  ["null", "Null", "NULL", "true", "True", "TRUE", "false", "False", "FALSE"]

def nameText (name : String) : String :=
  if reserved.contains name then "'" ++ name ++ "'" else name

/-- The longest simple key, in bytes. -/
def simpleKeyLimit : Nat := 128

def entryText (entry : String × UInt16) : String :=
  let name := nameText entry.1
  let value := "$" ++ Numeral.word entry.2
  if name.utf8ByteSize ≤ simpleKeyLimit then name ++ ": " ++ value ++ "\n"
  else "? " ++ name ++ "\n: " ++ value ++ "\n"

def text (labels : LabelTable) : String :=
  if labels.isEmpty then "\x7b\x7d\n" else String.join (labels.toList.map entryText)

end B33.Console.SymbolFile
