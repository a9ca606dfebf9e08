import B33.NameTable
import B33.Text.Numeral
import Mathlib.Data.List.Basic

/-!
# Letters and their capitals

Putting a character into capitals changes the small ASCII letters and nothing else, so it changes
neither which digit a character is nor whether it is a letter or a sign.
-/
namespace B33

theorem toUpper_cases (c : Char) : c.toUpper = c ∨ ∃ n < 26, c = Char.ofNat (97 + n) := by
  by_cases h : 'a'.val ≤ c.val ∧ c.val ≤ 'z'.val
  · refine .inr ⟨c.toNat - 97, ?_, ?_⟩
    · have hle : c.toNat ≤ 122 := h.2
      omega
    · have hge : 97 ≤ c.toNat := h.1
      rw [Nat.add_sub_cancel' hge, Char.ofNat_toNat]
  · exact .inl (dif_neg h)

/-- What holds of each small letter with its capital and of each other character with itself. -/
theorem toUpper_induction {P : Char → Char → Prop} (same : ∀ c, c.toUpper = c → P c c)
    (small : ∀ n < 26, P (Char.ofNat (97 + n)) (Char.ofNat (97 + n)).toUpper) (c : Char) :
    P c c.toUpper := by
  rcases toUpper_cases c with h | ⟨n, hn, rfl⟩
  · rw [h]
    exact same c h
  · exact small n hn

@[simp] theorem toUpper_toUpper (c : Char) : c.toUpper.toUpper = c.toUpper :=
  toUpper_induction (P := fun _ d => d.toUpper = d) (fun _ h => h) (by decide) c

theorem isAlphanum_toUpper (c : Char) : c.toUpper.isAlphanum = c.isAlphanum :=
  toUpper_induction (P := fun c d => d.isAlphanum = c.isAlphanum) (fun _ _ => rfl) (by decide) c

theorem isAlpha_toUpper (c : Char) : c.toUpper.isAlpha = c.isAlpha :=
  toUpper_induction (P := fun c d => d.isAlpha = c.isAlpha) (fun _ _ => rfl) (by decide) c

/-- A character that is no letter is put into capitals from itself alone. -/
theorem toUpper_eq_iff {x : Char} (hx : x.isAlpha = false) (c : Char) : c.toUpper = x ↔ c = x := by
  rcases toUpper_cases c with h | ⟨n, hn, rfl⟩
  · rw [h]
  · have hsmall : ∀ n < 26, (Char.ofNat (97 + n)).isAlpha = true := by decide
    have hne {d : Char} (hd : d.isAlpha = true) : d ≠ x := by
      rintro rfl
      rw [hx] at hd
      cases hd
    exact iff_of_false (hne ((isAlpha_toUpper _).trans (hsmall n hn))) (hne (hsmall n hn))

theorem mem_map_toUpper_iff {x : Char} (hx : x.isAlpha = false) (cs : List Char) :
    x ∈ cs.map Char.toUpper ↔ x ∈ cs := by
  simp only [List.mem_map, toUpper_eq_iff hx, exists_eq_right]

theorem map_toUpper_toUpper (cs : List Char) :
    (cs.map Char.toUpper).map Char.toUpper = cs.map Char.toUpper := by
  rw [List.map_map]
  exact List.map_congr_left fun c _ => toUpper_toUpper c

@[simp] theorem foldCase_foldCase (s : String) : foldCase (foldCase s) = foldCase s := by
  rw [← String.toList_inj]
  simp only [foldCase, String.toList_map, map_toUpper_toUpper]

theorem foldCase_ofList (cs : List Char) :
    foldCase (.ofList cs) = .ofList (cs.map Char.toUpper) := by
  rw [← String.toList_inj, foldCase, String.toList_map, String.toList_ofList, String.toList_ofList]

namespace Numeral

theorem digitValue?_toUpper (c : Char) : digitValue? c.toUpper = digitValue? c :=
  toUpper_induction (P := fun c d => digitValue? d = digitValue? c) (fun _ _ => rfl) (by decide) c

theorem readOnto?_map_toUpper (base acc : Nat) (cs : List Char) :
    readOnto? base acc (cs.map Char.toUpper) = readOnto? base acc cs := by
  induction cs generalizing acc with
  | nil => rfl
  | cons c cs ih => simp only [List.map_cons, readOnto?, digitValue?_toUpper, ih]

theorem value?_map_toUpper (base : Nat) (cs : List Char) :
    value? base (cs.map Char.toUpper) = value? base cs := by
  rw [value?, value?, List.isEmpty_map, readOnto?_map_toUpper]

end Numeral

end B33
