import B33.NameTable
import B33.Source.Error

/-!
# Symbols

Labels stand for addresses, and named numbers for any value. They share one space of names.
-/

namespace B33.Assembly

structure Symbols where
  labels : LabelTable := {}
  constants : NameTable Int := {}

namespace Symbols

def value? (s : Symbols) (name : String) : Option Int :=
  match s.labels.get? name with
  | some address => some address.toNat
  | none => s.constants.get? name

theorem value?_eq_none_iff {s : Symbols} {name : String} :
    s.value? name = none ↔ s.labels.get? name = none ∧ s.constants.get? name = none := by
  unfold value?
  cases s.labels.get? name <;> simp

/-- The complaint about a name that stands for `value` already, cut to a word. -/
def redefined (name : String) (value : Int) : Source.Cause :=
  .redefinedLabel name (UInt16.ofInt value)

def defineLabel (s : Symbols) (name : String) (address : UInt16) : Except Source.Cause Symbols :=
  match h : s.value? name with
  | some value => .error (redefined name value)
  | none =>
    match s, h with
    | ⟨labels, constants⟩, h =>
      .ok ⟨labels.push name address (value?_eq_none_iff.mp h).1, constants⟩

def defineConstant (s : Symbols) (name : String) (value : Int) : Except Source.Cause Symbols :=
  match h : s.value? name with
  | some previous => .error (redefined name previous)
  | none =>
    match s, h with
    | ⟨labels, constants⟩, h =>
      .ok ⟨labels, constants.push name value (value?_eq_none_iff.mp h).2⟩

end Symbols

end B33.Assembly
