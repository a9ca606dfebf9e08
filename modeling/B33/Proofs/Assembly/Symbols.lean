import B33.Assembly.Symbols
import B33.Proofs.NameTable

/-!
# Definitions

A definition gives a value to a name that has none, and every other name keeps what it stands for.
So names are only ever added, and what was looked up once stays as it is.
-/
namespace B33.Assembly.Symbols

variable {s t u : Symbols} {name : String} {v : Int}

theorem value?_congr (s : Symbols) {a b : String} (h : foldCase a = foldCase b) :
    s.value? a = s.value? b := by
  unfold value?
  rw [s.labels.get?_congr h, s.constants.get?_congr h]

@[simp] theorem value?_empty (name : String) : ({} : Symbols).value? name = none := by
  simp [value?]

/-- Every name that stands for something stands for the same in the larger table. -/
def Extends (s t : Symbols) : Prop := ∀ name v, s.value? name = some v → t.value? name = some v

theorem Extends.refl (s : Symbols) : s.Extends s := fun _ _ h => h

/-- The larger table has one more name. -/
structure Gains (s t : Symbols) (name : String) (v : Int) : Prop where
  fresh : s.value? name = none
  value : ∀ key, t.value? key = if foldCase name = foldCase key then some v else s.value? key

namespace Gains

theorem self (h : Gains s t name v) : t.value? name = some v := by
  rw [h.value, if_pos rfl]

theorem extension (h : Gains s t name v) : s.Extends t := by
  intro key w hw
  rw [h.value]
  split_ifs with hk
  · rw [← s.value?_congr hk, h.fresh] at hw
    cases hw
  · exact hw

end Gains

section
variable {value : Int}

theorem defineLabel_of_defined {address : UInt16} (h : s.value? name = some value) :
    s.defineLabel name address = .error (redefined name value) := by
  unfold defineLabel
  split
  · next value' h' =>
    rw [h] at h'
    cases h'
    rfl
  · next h' => simp [h] at h'

theorem defineLabel_of_fresh {address : UInt16} (h : s.value? name = none) :
    s.defineLabel name address =
      .ok ⟨s.labels.push name address (value?_eq_none_iff.mp h).1, s.constants⟩ := by
  unfold defineLabel
  split
  · next value' h' => simp [h] at h'
  · rfl

theorem defineConstant_of_defined (h : s.value? name = some value) :
    s.defineConstant name v = .error (redefined name value) := by
  unfold defineConstant
  split
  · next value' h' =>
    rw [h] at h'
    cases h'
    rfl
  · next h' => simp [h] at h'

theorem defineConstant_of_fresh (h : s.value? name = none) :
    s.defineConstant name v =
      .ok ⟨s.labels, s.constants.push name v (value?_eq_none_iff.mp h).2⟩ := by
  unfold defineConstant
  split
  · next value' h' => simp [h] at h'
  · rfl

end

theorem defineLabel_eq_ok {address : UInt16} (h : s.defineLabel name address = .ok t) :
    Gains s t name address.toNat ∧ t.labels.toList = s.labels.toList ++ [(name, address)] := by
  obtain ⟨labels, constants⟩ := s
  unfold defineLabel at h
  split at h
  · cases h
  · next fresh =>
    cases h
    refine ⟨⟨fresh, fun key => ?_⟩, NameTable.toList_push _ _ _ (value?_eq_none_iff.mp fresh).1⟩
    simp only [value?, NameTable.get?_push]
    by_cases hk : foldCase name = foldCase key
    · simp [hk]
    · simp [hk]

theorem defineConstant_eq_ok (h : s.defineConstant name v = .ok t) :
    Gains s t name v ∧ t.labels = s.labels := by
  obtain ⟨labels, constants⟩ := s
  unfold defineConstant at h
  split at h
  · cases h
  · next fresh =>
    cases h
    refine ⟨⟨fresh, fun key => ?_⟩, rfl⟩
    have hl := (value?_eq_none_iff.mp fresh).1
    simp only [value?, NameTable.get?_push]
    by_cases hk : foldCase name = foldCase key
    · simp only at hl
      simp [hk, ← labels.get?_congr hk, hl]
    · simp [hk]

theorem exists_defineLabel (fresh : s.value? name = none) (address : UInt16) :
    ∃ t, s.defineLabel name address = .ok t := ⟨_, defineLabel_of_fresh fresh⟩

end B33.Assembly.Symbols
