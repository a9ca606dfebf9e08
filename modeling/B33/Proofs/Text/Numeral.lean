import B33.Text.Numeral
import Mathlib.Data.Nat.Notation

/-!
# Reading numerals

A numeral is read as the number it was written for, with any number of zeros before it.
-/
namespace B33.Numeral

/-- What can stand in a hexadecimal numeral. -/
def IsHexDigit (c : Char) : Prop := ∃ d < 16, c = digitChar d

theorem digitValue?_digitChar {d : Nat} (h : d < 16) : digitValue? (digitChar d) = some d := by
  have all : ∀ d < 16, digitValue? (digitChar d) = some d := by decide
  exact all d h

theorem isAlphanum_of_isHexDigit {c : Char} (h : IsHexDigit c) : c.isAlphanum = true := by
  have all : ∀ d < 16, (digitChar d).isAlphanum = true := by decide
  obtain ⟨d, hd, rfl⟩ := h
  exact all d hd

theorem readOnto?_append {base acc n : Nat} {xs ys : List Char}
    (h : readOnto? base acc xs = some n) : readOnto? base acc (xs ++ ys) = readOnto? base n ys := by
  induction xs generalizing acc with
  | nil =>
      cases h
      rfl
  | cons x xs ih =>
      unfold readOnto? at h
      rw [List.cons_append, readOnto?]
      cases hx : digitValue? x with
      | none =>
          rw [hx] at h
          cases h
      | some d =>
          rw [hx] at h
          dsimp only at h ⊢
          split at h
          · next hd =>
            rw [if_pos hd]
            exact ih h
          · cases h

theorem readOnto?_digit {base acc d : Nat} (hd : d < base) (hb : base ≤ 16) :
    readOnto? base acc [digitChar d] = some (acc * base + d) := by
  simp [readOnto?, digitValue?_digitChar (Nat.lt_of_lt_of_le hd hb), hd]

theorem readOnto?_zeros (k : Nat) : readOnto? 16 0 (List.replicate k '0') = some 0 := by
  induction k with
  | zero => rfl
  | succ k ih =>
      rw [List.replicate_succ', readOnto?_append ih]
      rfl

theorem digits_eq (base n : Nat) : digits base n =
    if n < base ∨ base < 2 then [digitChar n]
    else digits base (n / base) ++ [digitChar (n % base)] := by
  rw [digits]
  split <;> rfl

theorem digits_ne_nil (base n : Nat) : digits base n ≠ [] := by
  rw [digits_eq]
  split <;> simp

section
variable {base : Nat} (htwo : 2 ≤ base)
include htwo

theorem exists_of_mem_digits {n : Nat} {c : Char} (h : c ∈ digits base n) :
    ∃ d < base, c = digitChar d := by
  induction n using Nat.strongRecOn with
  | ind n ih =>
      rw [digits_eq] at h
      split at h
      · exact ⟨n, by omega, List.mem_singleton.mp h⟩
      · rcases List.mem_append.mp h with h | h
        · exact ih (n / base) (Nat.div_lt_self (by omega) (by omega)) h
        · exact ⟨n % base, Nat.mod_lt _ (by omega), List.mem_singleton.mp h⟩

theorem readOnto?_digits (hb : base ≤ 16) (n : Nat) :
    readOnto? base 0 (digits base n) = some n := by
  induction n using Nat.strongRecOn with
  | ind n ih =>
      rw [digits_eq]
      split
      · rw [readOnto?_digit (by omega) hb, Nat.zero_mul, Nat.zero_add]
      · have hless : n / base < n := Nat.div_lt_self (by omega) (by omega)
        rw [readOnto?_append (ih _ hless), readOnto?_digit (Nat.mod_lt _ (by omega)) hb,
          Nat.div_add_mod']

end

theorem isHexDigit_of_mem_digits {base n : Nat} (htwo : 2 ≤ base) (hb : base ≤ 16) {c : Char}
    (h : c ∈ digits base n) : IsHexDigit c := by
  obtain ⟨d, hd, hc⟩ := exists_of_mem_digits htwo h
  exact ⟨d, Nat.lt_of_lt_of_le hd hb, hc⟩

theorem toList_decimal (n : Nat) : (decimal n).toList = digits 10 n := String.toList_ofList

theorem value?_decimal (n : Nat) : value? 10 (decimal n).toList = some n := by
  rw [toList_decimal, value?, if_neg (by simp [digits_ne_nil]),
    readOnto?_digits (by decide) (by decide)]

theorem isDigit_of_mem_decimal {n : Nat} {c : Char} (h : c ∈ (decimal n).toList) :
    c.isDigit = true := by
  have all : ∀ d < 10, (digitChar d).isDigit = true := by decide
  rw [toList_decimal] at h
  obtain ⟨d, hd, rfl⟩ := exists_of_mem_digits (by decide) h
  exact all d hd

theorem toList_hex (width n : Nat) :
    (hex width n).toList = List.replicate (width - (digits 16 n).length) '0' ++ digits 16 n :=
  String.toList_ofList

theorem value?_hex (width n : Nat) : value? 16 (hex width n).toList = some n := by
  rw [toList_hex, value?, if_neg (by simp [digits_ne_nil]), readOnto?_append (readOnto?_zeros _),
    readOnto?_digits (by decide) (by decide)]

theorem isHexDigit_of_mem_hex {width n : Nat} {c : Char} (h : c ∈ (hex width n).toList) :
    IsHexDigit c := by
  rw [toList_hex] at h
  rcases List.mem_append.mp h with h | h
  · exact ⟨0, by omega, (List.mem_replicate.mp h).2⟩
  · exact isHexDigit_of_mem_digits (by decide) (by decide) h

theorem not_mem_hex (width n : Nat) {c : Char} (hc : c.isAlphanum = false) :
    c ∉ (hex width n).toList := by
  intro h
  rw [isAlphanum_of_isHexDigit (isHexDigit_of_mem_hex h)] at hc
  cases hc

theorem byte_inj {a b : UInt8} : byte a = byte b ↔ a = b := by
  constructor
  · intro h
    have ha : value? 16 (byte a).toList = some a.toNat := value?_hex 2 a.toNat
    have hb : value? 16 (byte b).toList = some b.toNat := value?_hex 2 b.toNat
    rw [h, hb, Option.some.injEq] at ha
    exact UInt8.toNat_inj.mp ha.symm
  · rintro rfl
    rfl

end B33.Numeral
