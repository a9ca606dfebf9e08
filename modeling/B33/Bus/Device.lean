/-!
# Devices

A device answers for some addresses in place of memory. Offsets count from the first of them.
Devices keep what is their own. The keys typed and the tones played belong to the bus, which every
keyboard and every sound device shares: a device only signals what becomes of them.
-/

namespace B33

/-- A note and how long it sounds, in sixtieths of a second. -/
structure Tone where
  note : UInt8
  ticks : UInt8
  deriving DecidableEq, Repr

namespace Tone

/-- How long the tone sounds, in whole milliseconds. -/
def milliseconds (t : Tone) : Nat := t.ticks.toNat * 1000 / 60

end Tone

inductive Signal where
  | play (t : Tone)
  | dropKeys
  deriving DecidableEq, Repr

inductive Device where
  /-- Bytes that hold what is written to them. -/
  | framebuffer (name : String) (cells : Array UInt8)
  /-- One byte that takes a note and then its duration. -/
  | sound (pending : Option UInt8)
  /-- A byte that counts the keys waiting, and one that hands out the next. -/
  | keyboard
  deriving DecidableEq, Repr

namespace Device

/-- The number of bytes of a screen: two for each of 80 by 25 characters, one that shows the cursor
and two for its place. -/
def screenSize : Nat := 4003

def screen (name : String) : Device := framebuffer name (Array.replicate screenSize 0)

def name : Device → String
  | framebuffer name _ => name
  | sound _ => "sound"
  | keyboard => "keyboard"

def size : Device → Nat
  | framebuffer _ cells => cells.size
  | sound _ => 1
  | keyboard => 2

def inspect (keys : List UInt8) (offset : UInt16) : Device → UInt8
  | framebuffer _ cells => cells.getD offset.toNat 0
  | sound pending => if pending.isSome then 1 else 0
  | keyboard =>
    if offset = 0 then UInt8.ofNat (min keys.length 255)
    else if offset = 1 then keys.headD 0
    else 0

def takesKey (offset : UInt16) : Device → Bool
  | keyboard => offset == 1
  | _ => false

def poke (offset : UInt16) (value : UInt8) : Device → Device
  | framebuffer name cells => framebuffer name (cells.setIfInBounds offset.toNat value)
  | sound none => sound (some value)
  | sound (some _) => sound none
  | keyboard => keyboard

def signal? (offset : UInt16) (value : UInt8) : Device → Option Signal
  | sound (some note) => some (.play { note, ticks := value })
  | keyboard => if offset = 0 ∧ value = 0 then some .dropKeys else none
  | _ => none

end Device

end B33
