import B33.NameTable
import Mathlib.Data.List.Nodup

/-!
# Looking names up

Looking a name up finds what was defined under it in either case, and one more definition changes
nothing for the other names.
-/
namespace B33.NameTable

variable {α : Type}

theorem get?_congr (t : NameTable α) {a b : String} (h : foldCase a = foldCase b) :
    t.get? a = t.get? b := by
  unfold get?
  rw [h]

@[simp] theorem get?_empty (name : String) : ({} : NameTable α).get? name = none := by
  simp [get?]

theorem get?_push (t : NameTable α) (name : String) (value : α) (fresh : t.get? name = none)
    (key : String) :
    (t.push name value fresh).get? key =
      if foldCase name = foldCase key then some value else t.get? key := by
  unfold get? push
  rw [Std.HashMap.getElem?_insert]
  by_cases h : foldCase name = foldCase key
  · simp [h]
  · simp [h]

theorem get?_eq_none_iff (t : NameTable α) (name : String) :
    t.get? name = none ↔ foldCase name ∉ t.toList.map (fun e => foldCase e.1) := by
  rw [get?_eq_find?, Option.map_eq_none_iff, List.find?_eq_none]
  simp only [beq_iff_eq, List.mem_map, not_exists, not_and]

theorem insert_eq_ok_of_fresh {t : NameTable α} {name : String} (value : α)
    (h : t.get? name = none) :
    ∃ t', t.insert name value = .ok t' ∧ t'.toList = t.toList ++ [(name, value)] := by
  refine ⟨t.push name value h, ?_, t.toList_push name value h⟩
  unfold insert
  split
  · next previous hp =>
    rw [h] at hp
    cases hp
  · rfl

theorem insert_eq_error_of_defined {t : NameTable α} {name : String} (value : α)
    (h : t.get? name ≠ none) : ∃ previous, t.insert name value = .error previous := by
  unfold insert
  split
  · next previous hp => exact ⟨previous, rfl⟩
  · next hp => exact (h hp).elim

/-- What a definition adds to a table is the last of its entries. -/
theorem toList_of_insert {t after : NameTable α} {name : String} {value : α}
    (h : t.insert name value = .ok after) : after.toList = t.toList ++ [(name, value)] := by
  by_cases hfresh : t.get? name = none
  · obtain ⟨next, hnext, hlist⟩ := insert_eq_ok_of_fresh value hfresh
    cases hnext.symm.trans h
    exact hlist
  · obtain ⟨previous, hprevious⟩ := insert_eq_error_of_defined value hfresh
    cases hprevious.symm.trans h

end B33.NameTable
