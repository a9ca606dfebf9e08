import B33.Proofs.Text.Case
import B33.Proofs.Text.Numeral
import Mathlib.Data.List.Forall2
import Mathlib.Data.Nat.Digits.Defs
import Mathlib.Tactic.Ring

/-!
# Positional value

A numeral is a row of digits, each worth a power of the base, the last one counting ones. A row of
characters is read as a number exactly if it is a numeral of that number.
-/
namespace B33.Numeral

/-- Whether a character is the digit for `d`, as a capital or a small letter from ten on. -/
def IsDigit (base : Nat) (c : Char) (d : Nat) : Prop := d < base ∧ c.toUpper = digitChar d

/-- Whether characters are the digits of a number, with any number of zeros before it. -/
def Denotes (base : Nat) (cs : List Char) (n : Nat) : Prop :=
  cs ≠ [] ∧ ∃ ds, List.Forall₂ (IsDigit base) cs ds ∧ n = Nat.ofDigits base ds.reverse

theorem digitValue?_eq_some_iff {c : Char} {d : Nat} : digitValue? c = some d ↔ IsDigit 36 c d := by
  constructor
  · refine toUpper_induction (P := fun c e => digitValue? c = some d → d < 36 ∧ e = digitChar d)
      ?_ ?_ c
    · intro c hsame h
      unfold digitValue? at h
      split_ifs at h with hdecimal hcapital hsmall
      · have hlow : 48 ≤ c.toNat := hdecimal.1
        have hhigh : c.toNat ≤ 57 := hdecimal.2
        cases h
        rw [digitChar, if_pos (by omega), Nat.add_sub_cancel' hlow, Char.ofNat_toNat]
        exact ⟨by omega, rfl⟩
      · have hlow : 65 ≤ c.toNat := hcapital.1
        have hhigh : c.toNat ≤ 90 := hcapital.2
        cases h
        rw [digitChar, if_neg (by omega), Nat.add_sub_cancel' (by omega), Char.ofNat_toNat]
        exact ⟨by omega, rfl⟩
      · -- A small letter is not its own capital.
        have hne : ∀ n < 26, (Char.ofNat (97 + n)).toUpper ≠ Char.ofNat (97 + n) := by decide
        have hlow : 97 ≤ c.toNat := hsmall.1
        have hhigh : c.toNat ≤ 122 := hsmall.2
        refine (hne (c.toNat - 97) (by omega) ?_).elim
        rw [Nat.add_sub_cancel' hlow, Char.ofNat_toNat, hsame]
    · intro n hn h
      have hall : ∀ n < 26, digitValue? (Char.ofNat (97 + n)) = some (n + 10) ∧
          (Char.ofNat (97 + n)).toUpper = digitChar (n + 10) := by decide
      rw [(hall n hn).1] at h
      cases h
      exact ⟨by omega, (hall n hn).2⟩
  · rintro ⟨hd, hc⟩
    have hall : ∀ d < 36, digitValue? (digitChar d) = some d := by decide
    rw [← digitValue?_toUpper, hc, hall d hd]

theorem readOnto?_cons_eq_some_iff {base acc n : Nat} (hbase : base ≤ 36) {c : Char}
    {cs : List Char} :
    readOnto? base acc (c :: cs) = some n ↔
      ∃ d, IsDigit base c d ∧ readOnto? base (acc * base + d) cs = some n := by
  rw [readOnto?]
  constructor
  · intro h
    split at h
    · next d hvalue =>
      split_ifs at h with hd
      exact ⟨d, ⟨hd, (digitValue?_eq_some_iff.mp hvalue).2⟩, h⟩
    · cases h
  · rintro ⟨d, ⟨hd, hc⟩, h⟩
    rw [digitValue?_eq_some_iff.mpr ⟨Nat.lt_of_lt_of_le hd hbase, hc⟩]
    dsimp only
    rw [if_pos hd, h]

/-- What was read before is worth as many powers of the base more as there are digits behind it. -/
theorem readOnto?_eq_some_iff {base acc n : Nat} (hbase : base ≤ 36) {cs : List Char} :
    readOnto? base acc cs = some n ↔
      ∃ ds, List.Forall₂ (IsDigit base) cs ds ∧
        n = Nat.ofDigits base ds.reverse + base ^ ds.length * acc := by
  induction cs generalizing acc with
  | nil =>
      simp only [readOnto?, Option.some.injEq, List.forall₂_nil_left_iff, exists_eq_left,
        List.reverse_nil, Nat.ofDigits_nil, List.length_nil, pow_zero, one_mul, zero_add]
      exact eq_comm
  | cons c cs ih =>
      simp only [readOnto?_cons_eq_some_iff hbase, ih, List.forall₂_cons_left_iff]
      have hvalue (d : Nat) (ds : List Nat) :
          Nat.ofDigits base ds.reverse + base ^ ds.length * (acc * base + d) =
            Nat.ofDigits base (d :: ds).reverse + base ^ (d :: ds).length * acc := by
        rw [Nat.ofDigits_reverse_cons, List.length_cons]
        ring
      constructor
      · rintro ⟨d, hd, ds, hds, rfl⟩
        exact ⟨d :: ds, ⟨d, ds, hd, hds, rfl⟩, hvalue d ds⟩
      · rintro ⟨_, ⟨d, ds, hd, hds, rfl⟩, rfl⟩
        exact ⟨d, hd, ds, hds, (hvalue d ds).symm⟩

theorem value?_eq_some_iff {base n : Nat} (hbase : base ≤ 36) {cs : List Char} :
    value? base cs = some n ↔ Denotes base cs n := by
  rw [value?, Denotes]
  cases cs with
  | nil => simp
  | cons c cs => simp [readOnto?_eq_some_iff hbase]

end B33.Numeral
