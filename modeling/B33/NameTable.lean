import Std.Data.HashMap

/-!
# Names without case

A name table keeps values under names in the order in which the names were defined. Names that
differ only in the case of ASCII letters are the same name, and the spelling of its definition is
the one that is kept. `toList` is what a table contains; the hash map beside it only makes look-up
fast, and the proof field says that the two agree.
-/

namespace B33

/-- The capital form under which names are compared. -/
def foldCase (s : String) : String := s.map Char.toUpper

/-- An empty index gives what a search of no entries gives. -/
theorem getElem?_empty_index {α : Type} (key : String) :
    ({} : Std.HashMap String α)[key]? =
      ((#[] : Array (String × α)).toList.find? (fun e => foldCase e.1 == key)).map (·.2) := by
  simp

/-- Values under names, in order of definition. -/
structure NameTable (α : Type) where
  /-- The names as spelt, with their values, in order of definition. -/
  entries : Array (String × α) := #[]
  /-- The values by capital form. -/
  index : Std.HashMap String α := {}
  /-- Looking up by hash gives what a search of the entries gives. -/
  index_eq : ∀ key : String,
    index[key]? = (entries.toList.find? (fun e => foldCase e.1 == key)).map (·.2) := by
      exact getElem?_empty_index

namespace NameTable

variable {α : Type}

def toList (t : NameTable α) : List (String × α) := t.entries.toList

def size (t : NameTable α) : Nat := t.entries.size

def isEmpty (t : NameTable α) : Bool := t.entries.isEmpty

def get? (t : NameTable α) (name : String) : Option α := t.index[foldCase name]?

def contains (t : NameTable α) (name : String) : Bool := (t.get? name).isSome

theorem get?_eq_find? (t : NameTable α) (name : String) :
    t.get? name = (t.toList.find? (fun e => foldCase e.1 == foldCase name)).map (·.2) :=
  t.index_eq (foldCase name)

/-- The table with one more name, for a name that is not defined yet. -/
def push (t : NameTable α) (name : String) (value : α) (fresh : t.get? name = none) :
    NameTable α where
  entries := t.entries.push (name, value)
  index := t.index.insert (foldCase name) value
  index_eq key := by
    have hold := t.index_eq key
    rw [Std.HashMap.getElem?_insert, Array.toList_push, List.find?_append]
    by_cases hkey : foldCase name = key
    · subst hkey
      have hnone : t.entries.toList.find? (fun e => foldCase e.1 == foldCase name) = none := by
        have := t.index_eq (foldCase name)
        rw [show t.index[foldCase name]? = none from fresh] at this
        simpa using this.symm
      simp [hnone]
    · have hne : (foldCase name == key) = false := by simpa using hkey
      simp only [hne, Bool.false_eq_true, if_false, List.find?_cons_of_neg, List.find?_nil,
        Option.or_none, hold, not_false_eq_true]

/-- Defines a name, or answers with the value it already has. -/
def insert (t : NameTable α) (name : String) (value : α) : Except α (NameTable α) :=
  match h : t.get? name with
  | some previous => .error previous
  | none => .ok (t.push name value h)

/-- Defines a name that is not defined yet, and leaves one that is as it is. -/
def insertNew (t : NameTable α) (name : String) (value : α) : NameTable α :=
  match h : t.get? name with
  | some _ => t
  | none => t.push name value h

/-- The names and values after a definition are those before it and the new one. -/
theorem toList_push (t : NameTable α) (name : String) (value : α) (fresh : t.get? name = none) :
    (t.push name value fresh).toList = t.toList ++ [(name, value)] := by
  simp [push, toList]

def nameOf? [BEq α] (t : NameTable α) (value : α) : Option String :=
  (t.entries.find? (fun e => e.2 == value)).map (·.1)

end NameTable

abbrev LabelTable := NameTable UInt16

end B33
