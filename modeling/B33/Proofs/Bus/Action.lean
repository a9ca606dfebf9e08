import B33.Proofs.Bus.Flat

/-!
# What is done to a bus at once

The bytes of an access are read or written one after the other, and between any two of them the host
can do something with the keys. So what happens to a bus is a row of actions of which each one is
done at once: it reads or writes a single byte, or it is the host's. Every access is such a row.
-/
namespace B33.Bus

/-- Something that is done at once. A read that bypasses the devices only inspects. -/
inductive Action where
  | press (key : UInt8)
  | typeText (s : String)
  | clearKeys
  | read (address : UInt16) (bypass : Bool)
  | write (address : UInt16) (value : UInt8)

namespace Action

def after (b : Bus) : Action → Bus
  | press key => b.press key
  | typeText s => b.typeText s
  | clearKeys => b.clearKeys
  | read address bypass => if bypass then b else (b.peek address).2
  | write address value => b.poke address value

/-- The byte that is read, with its address. -/
def answer? (b : Bus) : Action → Option (UInt16 × UInt8)
  | read address bypass => some (address, if bypass then b.inspect address else (b.peek address).1)
  | press _ | typeText _ | clearKeys | write .. => none

end Action

def afterActions (b : Bus) (history : List Action) : Bus := history.foldl Action.after b

/-- The bytes that are read in a row of actions, each with its address. -/
def answers (b : Bus) : List Action → List (UInt16 × UInt8)
  | [] => []
  | action :: later => (action.answer? b).toList ++ (action.after b).answers later

/-- The bytes of an access in the order in which they are read or written. -/
def Access.actions : Access → List Action
  | poke address value => [.write address value]
  | pokeWord address value =>
    [.write address (lowByte value), .write (address + 1) (highByte value)]
  | load origin bytes =>
    if origin.toNat + bytes.length ≤ 0x10000 then
      (bytesFrom origin bytes).map fun (address, value) => .write address value
    else []
  | peek address bypass => [.read address bypass]
  | peekWord address bypass => [.read address bypass, .read (address + 1) bypass]
  | inspect address => [.read address true]
  | inspectWord address => [.read address true, .read (address + 1) true]

variable (b : Bus)

theorem pokeAll_eq_afterActions (origin : UInt16) (values : List UInt8) :
    b.pokeAll origin values = b.afterActions
      ((bytesFrom origin values).map fun (address, value) => .write address value) := by
  induction values generalizing b origin with
  | nil => rfl
  | cons value values ih =>
      rw [bytesFrom_cons, List.map_cons, pokeAll, ih]
      rfl

theorem answers_writes (writes : List (UInt16 × UInt8)) :
    b.answers (writes.map fun (address, value) => .write address value) = [] := by
  induction writes generalizing b with
  | nil => rfl
  | cons w writes ih => exact ih (b.poke w.1 w.2)

/-- An access does to the bus what its actions do, with nothing between them. -/
theorem Access.after_eq (access : Access) : access.after b = b.afterActions access.actions := by
  cases access with
  | load origin bytes =>
      simp only [Access.after, Access.actions, Bus.load]
      by_cases hfits : origin.toNat + bytes.length ≤ 0x10000
      · rw [if_neg (Nat.not_lt.mpr hfits), if_pos hfits]
        exact b.pokeAll_eq_afterActions origin bytes
      · rw [if_pos (Nat.not_le.mp hfits), if_neg hfits]
        rfl
  | peekWord address bypass => cases bypass <;> rfl
  | poke | pokeWord | peek | inspect | inspectWord => rfl

/-- An access answers with the bytes that its actions read. -/
theorem Access.answer_eq (access : Access) : access.answer b = b.answers access.actions := by
  have hword (address : UInt16) (low high : UInt8) :
      Access.wordFrom address (wordOf high low) = [(address, low), (address + 1, high)] := by
    rw [Access.wordFrom, lowByte_wordOf, highByte_wordOf]
  cases access with
  | load origin bytes =>
      simp only [Access.answer, Access.actions]
      split_ifs
      · exact (b.answers_writes _).symm
      · rfl
  | peekWord address bypass =>
      cases bypass with
      | true => exact hword address _ _
      | false => exact hword address _ _
  | inspectWord address => exact hword address _ _
  | poke | pokeWord | peek | inspect => rfl

variable {b}

theorem IsStandard.action (h : b.IsStandard) (action : Action) : (action.after b).IsStandard := by
  cases action with
  | press | typeText | clearKeys => exact h.of_devices rfl
  | read address bypass =>
      cases bypass with
      | true => exact h
      | false => exact h.peek address
  | write address value => exact h.poke address value

theorem IsStandard.actions (h : b.IsStandard) (history : List Action) :
    (b.afterActions history).IsStandard := by
  induction history generalizing b with
  | nil => exact h
  | cons action history ih => exact ih (h.action action)

end B33.Bus
