import B33.Bus.Device
import B33.Register
import B33.Text.Numeral

/-!
# The bus

The bus is 64 KiB of memory with devices mapped over parts of it. An address belongs to the first
device that covers it, and since a device is only attached where no other is, to at most one.

Reading has one side effect, the key that a keyboard hands out. `inspect` reads without it.
-/

namespace B33

structure Mapping where
  base : UInt16
  device : Device
  deriving DecidableEq, Repr

namespace Mapping

/-- The address after the last one, which can be 65536. -/
def finish (m : Mapping) : Nat := m.base.toNat + m.device.size

def contains (m : Mapping) (address : UInt16) : Bool :=
  m.base ≤ address && address.toNat < m.finish

def meets (m n : Mapping) : Bool := m.base.toNat < n.finish && n.base.toNat < m.finish

def offset (m : Mapping) (address : UInt16) : UInt16 := address - m.base

end Mapping

inductive BusError where
  | overlap (name : String) (base : UInt16) (other : String) (otherBase : UInt16)
  | outOfRange (name : String) (base : UInt16)
  | programTooLarge (origin : UInt16) (length : Nat)
  deriving DecidableEq, Repr

def BusError.message : BusError → String
  | overlap name base other otherBase =>
    name ++ " at $" ++ Numeral.word base ++ " overlaps " ++ other ++ " at $" ++
      Numeral.word otherBase
  | outOfRange name base => name ++ " at $" ++ Numeral.word base ++ " runs past the end of memory"
  | programTooLarge origin length =>
    Numeral.decimal length ++ " bytes do not fit at $" ++ Numeral.word origin

/-- Memory, the devices mapped over it, and what they share. -/
structure Bus where
  ram : Vector UInt8 65536 := Vector.replicate 65536 0
  devices : List Mapping := []
  /-- The keys waiting, the next one first. -/
  keys : List UInt8 := []
  tones : Array Tone := #[]

namespace Bus

def attach (b : Bus) (base : UInt16) (device : Device) : Except BusError Bus :=
  let m : Mapping := { base, device }
  if 0x10000 < m.finish then .error (.outOfRange device.name base)
  else
    match b.devices.find? m.meets with
    | some other => .error (.overlap device.name base other.device.name other.base)
    | none => .ok { b with devices := b.devices ++ [m] }

def find? (b : Bus) (address : UInt16) : Option Mapping := b.devices.find? (·.contains address)

/-- The byte of memory at an address, whatever is mapped over it. -/
def ramAt (b : Bus) (address : UInt16) : UInt8 := b.ram.get ⟨address.toNat, address.toNat_lt⟩

def inspect (b : Bus) (address : UInt16) : UInt8 :=
  match b.find? address with
  | some m => m.device.inspect b.keys (m.offset address)
  | none => b.ramAt address

/-- The word at an address, low byte first. -/
def inspectWord (b : Bus) (address : UInt16) : UInt16 :=
  wordOf (b.inspect (address + 1)) (b.inspect address)

/-- Reads the byte at an address, and takes a key if it is a keyboard's. -/
def peek (b : Bus) (address : UInt16) : UInt8 × Bus :=
  match b.find? address with
  | some m =>
    let value := m.device.inspect b.keys (m.offset address)
    (value, if m.device.takesKey (m.offset address) then { b with keys := b.keys.tail } else b)
  | none => (b.ramAt address, b)

/-- Reads the word at an address, low byte first. -/
def peekWord (b : Bus) (address : UInt16) : UInt16 × Bus :=
  let (low, b) := b.peek address
  let (high, b) := b.peek (address + 1)
  (wordOf high low, b)

def obey (b : Bus) : Option Signal → Bus
  | some (.play t) => { b with tones := b.tones.push t }
  | some .dropKeys => { b with keys := [] }
  | none => b

/-- Writes a byte to the first device that answers for an address. -/
def pokeMapped (address : UInt16) (value : UInt8) : List Mapping → List Mapping
  | [] => []
  | m :: ms =>
    if m.contains address then { m with device := m.device.poke (m.offset address) value } :: ms
    else m :: pokeMapped address value ms

def poke (b : Bus) (address : UInt16) (value : UInt8) : Bus :=
  match b.find? address with
  | some m =>
    { b with devices := pokeMapped address value b.devices }.obey
      (m.device.signal? (m.offset address) value)
  | none => { b with ram := b.ram.set address.toNat value address.toNat_lt }

/-- Writes a word, low byte first. -/
def pokeWord (b : Bus) (address : UInt16) (value : UInt16) : Bus :=
  (b.poke address (lowByte value)).poke (address + 1) (highByte value)

def pokeAll (b : Bus) (address : UInt16) : List UInt8 → Bus
  | [] => b
  | value :: values => (b.poke address value).pokeAll (address + 1) values

/-- Writes a program, which has to end within memory. -/
def load (b : Bus) (origin : UInt16) (bytes : List UInt8) : Except BusError Bus :=
  if 0x10000 < origin.toNat + bytes.length then .error (.programTooLarge origin bytes.length)
  else .ok (b.pokeAll origin bytes)

/-- The bytes at `n` addresses, from an address on. -/
def bytesAt (b : Bus) (address : UInt16) (n : Nat) : List UInt8 :=
  (List.range n).map fun i => b.inspect (address + UInt16.ofNat i)

def press (b : Bus) (key : UInt8) : Bus := { b with keys := b.keys ++ [key] }

/-- The key of a byte of typed text: the key at the end of a line is a carriage return. -/
def keyOf (byte : UInt8) : UInt8 := if byte = 0x0A then 0x0D else byte

def typeText (b : Bus) (s : String) : Bus :=
  { b with keys := b.keys ++ s.toUTF8.data.toList.map keyOf }

def clearKeys (b : Bus) : Bus := { b with keys := [] }

def takeTones (b : Bus) : List Tone × Bus := (b.tones.toList, { b with tones := #[] })

def screen1Base : UInt16 := 0xE000

def screen2Base : UInt16 := 0xF000

def soundBase : UInt16 := 0xEFF0

def keyboardBase : UInt16 := 0xFFFE

def standard : Bus where
  devices :=
    [{ base := screen1Base, device := .screen "screen1" },
      { base := screen2Base, device := .screen "screen2" },
      { base := soundBase, device := .sound none },
      { base := keyboardBase, device := .keyboard }]

def screenBase? (number : Nat) : Option UInt16 :=
  match number with
  | 1 => some screen1Base
  | 2 => some screen2Base
  | _ => none

end Bus

end B33
