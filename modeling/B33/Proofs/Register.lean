import B33.Register
import Mathlib.Data.Nat.Bitwise

/-!
# Words and their halves

A word is its high byte and its low byte, and nothing else.
-/
namespace B33

theorem toNat_lowByte (w : UInt16) : (lowByte w).toNat = w.toNat % 256 := by
  simp [lowByte]

theorem toNat_highByte (w : UInt16) : (highByte w).toNat = w.toNat / 256 := by
  have := w.toNat_lt
  simp [highByte, Nat.shiftRight_eq_div_pow]
  omega

theorem toNat_wordOf (high low : UInt8) :
    (wordOf high low).toNat = high.toNat * 256 + low.toNat := by
  have h := high.toNat_lt
  have hl := low.toNat_lt
  rw [wordOf, UInt16.toNat_or, UInt16.toNat_shiftLeft, UInt8.toNat_toUInt16, UInt8.toNat_toUInt16]
  show high.toNat <<< 8 % 2 ^ 16 ||| low.toNat = _
  rw [Nat.shiftLeft_eq, Nat.mod_eq_of_lt (by omega), Nat.mul_comm,
    ← Nat.two_pow_add_eq_or_of_lt hl, Nat.mul_comm]

/-- A word that is taken apart and put together is the same word. -/
@[simp] theorem wordOf_highByte_lowByte (w : UInt16) : wordOf (highByte w) (lowByte w) = w := by
  apply UInt16.toNat_inj.mp
  rw [toNat_wordOf, toNat_highByte, toNat_lowByte]
  omega

@[simp] theorem lowByte_wordOf (high low : UInt8) : lowByte (wordOf high low) = low := by
  have := low.toNat_lt
  apply UInt8.toNat_inj.mp
  rw [toNat_lowByte, toNat_wordOf]
  omega

@[simp] theorem highByte_wordOf (high low : UInt8) : highByte (wordOf high low) = high := by
  have := low.toNat_lt
  apply UInt8.toNat_inj.mp
  rw [toNat_highByte, toNat_wordOf]
  omega

theorem toNat_ofNat_of_le {n : Nat} (h : n ≤ 0xFFFF) : (UInt16.ofNat n).toNat = n :=
  Nat.mod_eq_of_lt (Nat.lt_succ_of_le h)

theorem toNat_succ {w : UInt16} (h : w.toNat + 1 < 0x10000) : (w + 1).toNat = w.toNat + 1 := by
  rw [UInt16.toNat_add]
  exact Nat.mod_eq_of_lt h

theorem add_ofNat_succ (w : UInt16) (n : Nat) :
    w + 1 + UInt16.ofNat n = w + UInt16.ofNat (n + 1) := by
  rw [Nat.add_comm, UInt16.ofNat_add, ← UInt16.add_assoc]
  rfl

theorem toNat_ofInt (v : Int) : ((UInt16.ofInt v).toNat : Int) = v % 65536 := by
  rw [UInt16.ofInt, UInt16.toNat_ofNat']
  omega

theorem ofInt_toNat (w : UInt16) : UInt16.ofInt w.toNat = w := by
  have := w.toNat_lt
  have hw := toNat_ofInt w.toNat
  apply UInt16.toNat_inj.mp
  omega

theorem ofInt_toNat_byte (b : UInt8) : UInt8.ofInt b.toNat = b := by
  have := b.toNat_lt
  apply UInt8.toNat_inj.mp
  rw [UInt8.ofInt, UInt8.toNat_ofNat']
  omega

theorem toInt8_ofInt (d : Int) : (UInt8.ofInt d).toInt8 = Int8.ofInt d := by
  apply Int8.toBitVec_inj.mp
  show (UInt8.ofInt d).toBitVec = BitVec.ofInt 8 d
  apply BitVec.eq_of_toNat_eq
  simp [UInt8.ofInt]
  omega

/-- A byte is the byte of the number that it stands for with a sign. -/
theorem ofInt_toInt8 (b : UInt8) : UInt8.ofInt b.toInt8.toInt = b := by
  have h := toInt8_ofInt b.toInt8.toInt
  rw [Int8.ofInt_toInt] at h
  exact UInt8.toBitVec_inj.mp (congrArg Int8.toBitVec h)

theorem toNat_toUInt16_ofInt (v : Int) : ((UInt8.ofInt v).toUInt16.toNat : Int) = v % 256 := by
  rw [UInt8.toNat_toUInt16, UInt8.ofInt, UInt8.toNat_ofNat']
  omega

@[simp] theorem lowByte_toUInt16 (b : UInt8) : lowByte b.toUInt16 = b := UInt8.toUInt8_toUInt16 b

end B33
