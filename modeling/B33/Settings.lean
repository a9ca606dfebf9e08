import B33.Address
import B33.Cpu.Hook
import B33.Yaml.Document

/-!
# Settings of the emulator

Settings are read from a mapping with known fields, each at most once. An address is a number or
text that denotes one. The mapping is read from front to back, and the first thing in it that does
not fit is told with its place and with the fields that lead to it.
-/

namespace B33

structure Settings where
  /-- The milliseconds between two instructions. -/
  speed : Nat := 0
  breakpoints : List UInt16 := []
  storeBreakpoints : List UInt16 := []
  /-- The text that is typed before the program starts. -/
  keys : Option String := none
  /-- The seconds after which the program is stopped. -/
  timeout : Option Nat := none
  dump : List (UInt16 × DumpEntry) := []
  deriving DecidableEq, Repr

inductive Misfit where
  | kind (found expected : String)
  | unknownField (name : String) (known : List String)
  | repeatedField (name : String)
  | notAddress
  | address (e : AddressError)
  deriving DecidableEq, Repr

namespace Misfit

def quote (name : String) : String := "\x60" ++ name ++ "\x60"

def message : Misfit → String
  | kind found expected => "invalid type: " ++ found ++ ", expected " ++ expected
  | unknownField name known =>
    "unknown field " ++ quote name ++ ", expected one of " ++ ", ".intercalate (known.map quote)
  | repeatedField name => "duplicate field " ++ quote name
  | notAddress => "data did not match any variant of untagged enum AddrRepr"
  | address e => e.message

end Misfit

inductive SettingsError where
  | text (e : YamlError)
  /-- A value does not fit, to which some fields lead, at a place. -/
  | value (misfit : Misfit) (path : String) (mark : Mark)
  deriving DecidableEq, Repr

def SettingsError.message : SettingsError → String
  | text e => e.message
  | value misfit path mark =>
    (if path.isEmpty then "" else path ++ ": ") ++ misfit.message ++ mark.words

namespace Settings

abbrev Result := Except SettingsError

def field (path name : String) : String := if path.isEmpty then name else path ++ "." ++ name

def item (path : String) (i : Nat) : String := path ++ "[" ++ Numeral.decimal i ++ "]"

def nameOf : Yaml → String
  | .scalar _ _ s => s
  | _ => "?"

def refuse {α : Type} (path expected : String) : Yaml → Result α
  | .broken e => .error (.text e)
  | y => .error (.value (.kind y.describe expected) path y.mark)

def number (path : String) (y : Yaml) : Result Nat :=
  match y.meaning? with
  | some (.integer false n) => if n < Nat.pow 2 64 then .ok n else refuse path "u64" y
  | _ => refuse path "u64" y

def truth (path : String) (y : Yaml) : Result Bool :=
  match y.meaning? with
  | some (.truth b) => .ok b
  | _ => refuse path "a boolean" y

def text (path : String) : Yaml → Result String
  | .scalar _ _ s => .ok s
  | y => refuse path "a string" y

def optional {α : Type} (read : String → Yaml → Result α) (path : String) (y : Yaml) :
    Result (Option α) :=
  if y.isNull then .ok none else some <$> read path y

/-- The items of a sequence. Where nothing is written there are none. -/
def items (path : String) : Yaml → Result (List Yaml)
  | .sequence _ items => .ok items
  | y => if y.isAbsent then .ok [] else refuse path "a sequence" y

/-- The pairs of a mapping. Where nothing is written there are none. -/
def pairs (path expected : String) : Yaml → Result (List (Yaml × Yaml))
  | .mapping _ pairs => .ok pairs
  | y => if y.isAbsent then .ok [] else refuse path expected y

mutual

/-- The first thing in a value that no value can hold, if there is one: an integer of more than 64
bits, or the place where the value is broken off. -/
def unheld? (path : String) : Yaml → Option SettingsError
  | .scalar m false s =>
    let meaning := Yaml.Meaning.of s
    if meaning.isWide then some (.value (.kind (meaning.describe s) "any value") path m) else none
  | .scalar .. => none
  | .sequence _ items => unheldInItems? path 0 items
  | .mapping _ pairs => unheldInPairs? path pairs
  | .broken e => some (.text e)

def unheldInItems? (path : String) (i : Nat) : List Yaml → Option SettingsError
  | [] => none
  | y :: ys => (unheld? (item path i) y).or (unheldInItems? path (i + 1) ys)

def unheldInPairs? (path : String) : List (Yaml × Yaml) → Option SettingsError
  | [] => none
  | p :: ps => (unheldInPair? path p).or (unheldInPairs? path ps)

def unheldInPair? (path : String) : Yaml × Yaml → Option SettingsError
  | (key, value) => (unheld? path key).or (unheld? (field path (nameOf key)) value)

end

/-- An address: a number that is one, or a text that denotes one. What is no address is told of the
value `whole` that it stands in, and so is its path. -/
def address (whole : Yaml) (path itemPath : String) (y : Yaml) : Result UInt16 :=
  let misfit {α : Type} (m : Misfit) : Result α := .error (.value m path whole.mark)
  let parse (s : String) : Result UInt16 :=
    match Address.parse s with
    | .ok a => .ok a
    | .error e => misfit (.address e)
  match unheld? itemPath y, y, y.meaning? with
  | some e, _, _ => .error e
  | none, _, some (.integer negative n) =>
    if n < 0x10000 && (!negative || n = 0) then .ok (UInt16.ofNat n) else misfit .notAddress
  | none, .scalar _ _ s, some .text => parse s
  | none, .scalar _ true s, _ => parse s
  | none, _, _ => misfit .notAddress

def addresses (path : String) (y : Yaml) : Result (List UInt16) := do
  (← items path y).zipIdx.mapM fun (a, i) => address y path (item path i) a

/-- Reads a mapping field by field, from a value in which no field is set. No field comes twice. -/
def fields {α : Type} (known : List String) (set : α → String → Option (String → Yaml → Result α))
    (expected path : String) (start : α) (y : Yaml) : Result α := do
  let step (state : α × List String) (pair : Yaml × Yaml) : Result (α × List String) := do
    let (a, seen) := state
    match pair with
    | (.scalar m _ name, value) =>
      match set a name with
      | none => throw (.value (.unknownField name known) path m)
      | some read =>
        if seen.contains name then throw (.value (.repeatedField name) path y.mark)
        return (← read (field path name) value, name :: seen)
    | (key, _) => refuse path "field identifier" key
  let (a, _) ← (← pairs path expected y).foldlM step (start, [])
  return a

def setEntryField (e : DumpEntry) : String → Option (String → Yaml → Result DumpEntry)
  | "registers" => some fun path y => do return { e with registers := ← truth path y }
  | "stack" => some fun path y => do return { e with stack := ← truth path y }
  | "memory" => some fun path y => do return { e with memory := ← addresses path y }
  | _ => none

def entry (path : String) (y : Yaml) : Result DumpEntry :=
  fields ["registers", "stack", "memory"] setEntryField "struct DumpEntry" path {} y

/-- Puts an entry before others, unless the first of them is for the same address. -/
def putEntry (e : UInt16 × DumpEntry) :
    List (UInt16 × DumpEntry) → List (UInt16 × DumpEntry)
  | [] => [e]
  | f :: rest => if e.1 = f.1 then f :: rest else e :: f :: rest

/-- Entries in order of their addresses. Of several for one address the last counts. -/
def arrange (entries : List (UInt16 × DumpEntry)) : List (UInt16 × DumpEntry) :=
  (entries.mergeSort fun e f => e.1 ≤ f.1).foldr putEntry []

def dumpEntries (path : String) (y : Yaml) : Result (List (UInt16 × DumpEntry)) := do
  let entries ← (← pairs path "a map" y).mapM fun (key, value) => do
    let a ← address y path path key
    return (a, ← entry (field path (nameOf key)) value)
  return arrange entries

def setField (s : Settings) : String → Option (String → Yaml → Result Settings)
  | "speed" => some fun path y => do return { s with speed := ← number path y }
  | "breakpoints" => some fun path y => do return { s with breakpoints := ← addresses path y }
  | "store_breakpoints" =>
    some fun path y => do return { s with storeBreakpoints := ← addresses path y }
  | "keys" => some fun path y => do return { s with keys := ← optional text path y }
  | "timeout_secs" => some fun path y => do return { s with timeout := ← optional number path y }
  | "dump" => some fun path y => do return { s with dump := ← dumpEntries path y }
  | _ => none

def ofYaml (y : Yaml) : Result Settings :=
  fields ["speed", "breakpoints", "store_breakpoints", "keys", "timeout_secs", "dump"] setField
    "struct EmuConfig" "" {} y

/-- Reads settings. What is wrong with them comes before what is wrong behind them. -/
def read (octets : List UInt8) : Result Settings := do
  let (y, error) := Yaml.read octets
  let s ← ofYaml y
  match error with
  | some e => throw (.text e)
  | none => return s

def parse (text : String) : Result Settings := read text.toUTF8.toList

end Settings

end B33
