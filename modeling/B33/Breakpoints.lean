import B33.Text.Numeral

/-!
# Breakpoints

A breakpoint is armed for an address that is about to be executed, or that has been stored to. The
armed addresses of each kind are kept in order, each once.
-/

namespace B33

inductive BreakpointKind where
  | execution | store
  deriving DecidableEq, Repr

def BreakpointKind.name : BreakpointKind → String
  | execution => "Execution"
  | store => "Store"

structure Breakpoint where
  kind : BreakpointKind
  address : UInt16
  deriving DecidableEq, Repr

/-- Puts an address into an ordered list that does not have it. -/
def insertOrdered (address : UInt16) : List UInt16 → List UInt16
  | [] => [address]
  | a :: rest => if address < a then address :: a :: rest else a :: insertOrdered address rest

/-- The armed addresses of each kind, in order. -/
structure Breakpoints where
  execution : List UInt16 := []
  store : List UInt16 := []
  deriving DecidableEq, Repr

namespace Breakpoints

def armed (bs : Breakpoints) : BreakpointKind → List UInt16
  | .execution => bs.execution
  | .store => bs.store

def withArmed (bs : Breakpoints) (addresses : List UInt16) : BreakpointKind → Breakpoints
  | .execution => { bs with execution := addresses }
  | .store => { bs with store := addresses }

def contains (bs : Breakpoints) (b : Breakpoint) : Bool := (bs.armed b.kind).contains b.address

def add (bs : Breakpoints) (b : Breakpoint) : Breakpoints :=
  if bs.contains b then bs else bs.withArmed (insertOrdered b.address (bs.armed b.kind)) b.kind

def remove (bs : Breakpoints) (b : Breakpoint) : Breakpoints :=
  bs.withArmed ((bs.armed b.kind).filter (· != b.address)) b.kind

def isEmpty (bs : Breakpoints) : Bool := bs.execution.isEmpty && bs.store.isEmpty

/-- Every armed breakpoint, those for execution first. -/
def toList (bs : Breakpoints) : List Breakpoint :=
  bs.execution.map (⟨.execution, ·⟩) ++ bs.store.map (⟨.store, ·⟩)

/-- The breakpoint that is met when `next` is executed next and `store` has been stored to. -/
def check (bs : Breakpoints) (next : UInt16) (store : Option UInt16) : Option Breakpoint :=
  if bs.execution.contains next then some ⟨.execution, next⟩
  else (store.filter bs.store.contains).map (⟨.store, ·⟩)

end Breakpoints

end B33
