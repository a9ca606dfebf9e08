import B33.Address
import B33.NameTable

/-!
# Programs

A program is a run of bytes with the address of its first byte and the address where execution
starts. It may also carry its labels and, for each source line that produced bytes, the address of
the first of them.
-/

namespace B33

inductive ImageKind where
  /-- The bytes alone. -/
  | raw
  /-- The bytes with a signature, their addresses and the debug tables. -/
  | executable
  deriving DecidableEq, Repr

/-- The source line that produced the bytes from an address on. -/
structure DebugEntry where
  address : UInt16
  line : UInt16
  text : String
  deriving DecidableEq, Repr

/-- An assembled program. -/
structure Program where
  bytes : List UInt8
  origin : UInt16
  entry : UInt16
  labels : LabelTable := {}
  hasDebugInfo : Bool := false
  debugEntries : List DebugEntry := []
  dualMonitor : Bool := false
  kind : ImageKind := .raw

namespace Program

/-- The address after the last byte, which can be 65536. -/
def endAddress (p : Program) : Nat := p.origin.toNat + p.bytes.length

def sourceAt? (p : Program) (address : UInt16) : Option DebugEntry :=
  p.debugEntries.find? (·.address == address)

end Program

end B33
