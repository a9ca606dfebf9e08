import B33.Program
import B33.Register
import B33.Text.Numeral

/-!
# The executable format

An executable begins with a signature and a version. Then come the origin, the entry address, a
byte of flags, and the program's bytes after their count. When the debug flag is set, two counted
tables follow: debug entries (address, line, and a text after its two-byte length) and labels
(address, and a name after its one-byte length). Every word has its low byte first.

Counts are never cut: a program that has more of something than a count can hold has no executable.
Texts are cut, at a character boundary, to what their length field can hold.
-/

namespace B33

inductive CountedField where
  | programBytes | debugEntries | labels
  deriving DecidableEq, Repr

def CountedField.name : CountedField → String
  | programBytes => "program bytes"
  | debugEntries => "debug entries"
  | labels => "labels"

inductive FormatError where
  | badSignature
  | unsupportedVersion (version : UInt8)
  | originOutOfRange (origin : UInt16) (length : Nat)
  | entryOutside (entry : UInt16)
  | truncated
  | trailingData (count : Nat)
  | invalidText
  | tooLarge (field : CountedField) (count : Nat)
  | duplicateLabel (name : String)
  deriving DecidableEq, Repr

def FormatError.message : FormatError → String
  | badSignature => "Not a B33 executable (bad signature)"
  | unsupportedVersion v => "Unsupported format version: " ++ Numeral.decimal v.toNat
  | originOutOfRange origin length =>
    "Program of " ++ Numeral.decimal length ++ " bytes does not fit at origin $" ++
      Numeral.word origin
  | entryOutside entry =>
    "Execution address $" ++ Numeral.word entry ++ " is outside the program"
  | truncated => "Unexpected end of file"
  | trailingData n => Numeral.decimal n ++ " trailing bytes after the program"
  | invalidText => "Debug text is not valid UTF-8"
  | tooLarge field n =>
    "Too many " ++ field.name ++ " for the executable format: " ++ Numeral.decimal n
  | duplicateLabel name => "Label `" ++ name ++ "` is recorded twice"

namespace Executable

def signature : List UInt8 := [0x42, 0x33, 0x33]

def version : UInt8 := 1

def dualMonitorFlag : UInt8 := 0x01

def debugFlag : UInt8 := 0x02

/-- A word as two bytes, low byte first. -/
def wordBytes (w : UInt16) : List UInt8 := [lowByte w, highByte w]

def textBytes (s : String) : List UInt8 := s.toUTF8.data.toList

/-- The longest prefix that takes at most `room` bytes, after characters already taken, which stand
last one first. -/
def clipOnto (taken : List Char) (room : Nat) : List Char → List Char
  | [] => taken.reverse
  | c :: cs =>
    if c.utf8Size ≤ room then clipOnto (c :: taken) (room - c.utf8Size) cs else taken.reverse

/-- The longest prefix of a text that takes at most `room` bytes in UTF-8. -/
def clip (room : Nat) (s : String) : String :=
  if s.utf8ByteSize ≤ room then s else String.ofList (clipOnto [] room s.toList)

def countWord (field : CountedField) (n : Nat) : Except FormatError UInt16 :=
  if n < 0x10000 then .ok (UInt16.ofNat n) else .error (.tooLarge field n)

def entryBytes (e : DebugEntry) : List UInt8 :=
  let text := textBytes (clip 0xFFFF e.text)
  wordBytes e.address ++ wordBytes e.line ++ wordBytes (UInt16.ofNat text.length) ++ text

def labelBytes (label : String × UInt16) : List UInt8 :=
  let name := textBytes (clip 0xFF label.1)
  wordBytes label.2 ++ UInt8.ofNat name.length :: name

def flagsByte (p : Program) : UInt8 :=
  (if p.dualMonitor then dualMonitorFlag else 0) ||| (if p.hasDebugInfo then debugFlag else 0)

/-- The two debug tables, or nothing for a program without debug information. -/
def debugTables (p : Program) : Except FormatError (List UInt8) :=
  if p.hasDebugInfo then do
    let entries ← countWord .debugEntries p.debugEntries.length
    let labels ← countWord .labels p.labels.size
    return wordBytes entries ++ p.debugEntries.flatMap entryBytes ++
      wordBytes labels ++ p.labels.toList.flatMap labelBytes
  else return []

def encode (p : Program) : Except FormatError (List UInt8) := do
  let count ← countWord .programBytes p.bytes.length
  let tables ← debugTables p
  return signature ++ version :: wordBytes p.origin ++ wordBytes p.entry ++
    flagsByte p :: wordBytes count ++ p.bytes ++ tables

/-- A reader takes what it needs from the front of the bytes. -/
abbrev Reader := StateT (List UInt8) (Except FormatError)

/-- The next `n` bytes after those already taken, which stand last one first, and what is left. -/
def splitOnto? (taken : List UInt8) : Nat → List UInt8 → Option (List UInt8 × List UInt8)
  | 0, rest => some (taken.reverse, rest)
  | n + 1, b :: rest => splitOnto? (b :: taken) n rest
  | _ + 1, [] => none

def takeBytes (n : Nat) : Reader (List UInt8) := fun data =>
  match splitOnto? [] n data with
  | some result => .ok result
  | none => .error .truncated

def takeByte : Reader UInt8
  | b :: rest => .ok (b, rest)
  | [] => .error .truncated

def takeWord : Reader UInt16
  | low :: high :: rest => .ok (wordOf high low, rest)
  | _ => .error .truncated

def takeText (n : Nat) : Reader String := do
  let bytes ← takeBytes n
  match String.fromUTF8? ⟨bytes.toArray⟩ with
  | some s => return s
  | none => throw .invalidText

def takeEntry : Reader DebugEntry := do
  let address ← takeWord
  let line ← takeWord
  let length ← takeWord
  let text ← takeText length.toNat
  return { address, line, text }

/-- Takes `n` debug entries after those already taken, which stand last one first. -/
def takeEntries (taken : List DebugEntry) : Nat → Reader (List DebugEntry)
  | 0 => return taken.reverse
  | n + 1 => do
    let entry ← takeEntry
    takeEntries (entry :: taken) n

def takeLabel (table : LabelTable) : Reader LabelTable := do
  let address ← takeWord
  let length ← takeByte
  let name ← takeText length.toNat
  match table.insert name address with
  | .ok table => return table
  | .error _ => throw (.duplicateLabel name)

def takeLabels (table : LabelTable) : Nat → Reader LabelTable
  | 0 => return table
  | n + 1 => do
    let table ← takeLabel table
    takeLabels table n

/-- Takes the program behind the signature. The addresses are looked at before the bytes are. -/
def takeProgram : Reader Program := do
  let found ← takeByte
  if found != version then throw (.unsupportedVersion found)
  let origin ← takeWord
  let entry ← takeWord
  let flags ← takeByte
  let length := (← takeWord).toNat
  if origin.toNat + length > 0x10000 then throw (.originOutOfRange origin length)
  if 0 < length && !(origin.toNat ≤ entry.toNat && entry.toNat < origin.toNat + length) then
    throw (.entryOutside entry)
  let bytes ← takeBytes length
  let program : Program :=
    { bytes, origin, entry, kind := .executable, dualMonitor := flags &&& dualMonitorFlag != 0 }
  if flags &&& debugFlag != 0 then
    let debugEntries ← takeEntries [] (← takeWord).toNat
    let labels ← takeLabels {} (← takeWord).toNat
    return { program with hasDebugInfo := true, debugEntries, labels }
  else return program

def isSigned (data : List UInt8) : Bool := signature.isPrefixOf data

/-- The program of an executable, which ends where the program does. -/
def decode (data : List UInt8) : Except FormatError Program := do
  if !isSigned data then throw .badSignature
  let (program, rest) ← takeProgram (data.drop signature.length)
  if rest.isEmpty then return program else throw (.trailingData rest.length)

def isValid (data : List UInt8) : Bool := (decode data).isOk

end Executable

namespace Program

def image (p : Program) : Except FormatError (List UInt8) :=
  match p.kind with
  | .raw => .ok p.bytes
  | .executable => Executable.encode p

/-- The program that a file holds: an executable if it is signed, and otherwise its bytes, placed
and entered at `origin`. A signed file that is no executable is refused. -/
def ofImage (data : List UInt8) (origin : UInt16) : Except FormatError Program :=
  if Executable.isSigned data then Executable.decode data
  else if origin.toNat + data.length > 0x10000 then
    .error (.originOutOfRange origin data.length)
  else .ok { bytes := data, origin, entry := origin }

end Program

end B33
