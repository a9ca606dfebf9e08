import B33.Alu
import B33.Proofs.Register

/-!
# Exact arithmetic

Each operation gives the integer that it is for, cut to its width, and the condition codes say what
became of it: whether it is zero, its top bit, and whether the integer was out of range, without a
sign and with one. A change of condition codes settles what it names and leaves the rest of the byte
alone.
-/
namespace B33

/-- A number below twice the modulus wraps at most once. -/
theorem mod_of_lt_twice {n m : Nat} (h : n < 2 * m) : n % m = if n < m then n else n - m := by
  split
  · next hlt => exact Nat.mod_eq_of_lt hlt
  · next hle => rw [Nat.mod_eq_sub_mod (by omega), Nat.mod_eq_of_lt (by omega)]

namespace Width

/-- The integer that a number stands for with a sign, if its top bit is the sign. -/
def toSigned (w : Width) (n : Nat) : Int := if w.isNegative n then (n : Int) - w.modulus else n

/-- The integer that the low bits of a value stand for with a sign. -/
def signed (w : Width) (v : UInt16) : Int := Int.bmod v.toNat w.modulus

/-- Whether an integer is out of the range of a width without a sign. -/
def carries (w : Width) (n : Int) : Bool := n < 0 ∨ (w.modulus : Int) ≤ n

/-- Whether an integer is out of the range of a width with a sign. -/
def overflows (w : Width) (n : Int) : Bool := n < -(w.sign : Int) ∨ (w.sign : Int) ≤ n

theorem modulus_eq (w : Width) : w.modulus = 2 * w.sign := by
  cases w <;> rfl

theorem modulus_le (w : Width) : w.modulus ≤ 65536 := by
  cases w <;> decide

theorem one_lt_sign (w : Width) : 1 < w.sign := by
  cases w <;> decide

theorem cut_lt (w : Width) (v : UInt16) : w.cut v < w.modulus :=
  Nat.mod_lt _ (by cases w <;> decide)

/-- The top bit of a number that fits. -/
theorem testBit_eq {w : Width} {n : Nat} (h : n < w.modulus) :
    n.testBit (w.bits - 1) = w.isNegative n := by
  rw [Nat.testBit_eq_decide_div_mod_eq, isNegative]
  show decide (n / w.sign % 2 = 1) = decide (w.sign ≤ n)
  rw [decide_eq_decide]
  cases w with
  | byte =>
      change n < 256 at h
      change n / 128 % 2 = 1 ↔ 128 ≤ n
      omega
  | word =>
      change n < 65536 at h
      change n / 32768 % 2 = 1 ↔ 32768 ≤ n
      omega

theorem signed_eq (w : Width) (v : UInt16) : w.signed v = w.toSigned (w.cut v) := by
  have hmodulus := w.modulus_eq
  have hcut : ((v.toNat : Int) % w.modulus) = w.cut v := (Int.natCast_mod ..).symm
  rw [signed, Int.bmod_def, hcut, toSigned, isNegative]
  by_cases h : w.sign ≤ w.cut v
  · rw [if_neg (by omega), if_pos (decide_eq_true h)]
  · rw [if_pos (by omega), if_neg (by simpa using h)]

theorem toSigned_cases (w : Width) (n : Nat) :
    n < w.sign ∧ w.toSigned n = n ∨ w.sign ≤ n ∧ w.toSigned n = n - 2 * (w.sign : Int) := by
  rw [toSigned, isNegative, modulus_eq]
  by_cases h : w.sign ≤ n
  · right
    rw [if_pos (decide_eq_true h)]
    exact ⟨h, by omega⟩
  · left
    rw [if_neg (by simpa using h)]
    exact ⟨by omega, rfl⟩

section
variable {w : Width} {a b : Nat} (ha : a < w.modulus) (hb : b < w.modulus)
include ha hb

/-- Adding overflows exactly if two numbers of one sign have a sum of the other. -/
theorem overflows_add :
    (w.isNegative a == w.isNegative b && w.isNegative ((a + b) % w.modulus) != w.isNegative a) =
      w.overflows (w.toSigned a + w.toSigned b) := by
  have hsa := w.toSigned_cases a
  have hsb := w.toSigned_cases b
  have hwrap : (a + b) % w.modulus = if a + b < w.modulus then a + b else a + b - w.modulus :=
    mod_of_lt_twice (by omega)
  rw [modulus_eq] at *
  rw [Bool.eq_iff_iff]
  simp only [isNegative, overflows, Bool.and_eq_true, beq_iff_eq, bne_iff_ne, ne_eq, decide_eq_decide,
    decide_eq_true_eq]
  split_ifs at hwrap <;> omega

/-- Subtracting overflows exactly if two numbers of different signs have a difference whose sign is
not that of the first. -/
theorem overflows_sub :
    (w.isNegative a != w.isNegative b &&
        w.isNegative ((a + w.modulus - b) % w.modulus) != w.isNegative a) =
      w.overflows (w.toSigned a - w.toSigned b) := by
  have hsa := w.toSigned_cases a
  have hsb := w.toSigned_cases b
  have hwrap := mod_of_lt_twice (n := a + w.modulus - b) (m := w.modulus) (by omega)
  rw [modulus_eq] at *
  rw [Bool.eq_iff_iff]
  simp only [isNegative, overflows, Bool.and_eq_true, bne_iff_ne, ne_eq, decide_eq_decide,
    decide_eq_true_eq]
  split_ifs at hwrap <;> omega

/-- The sign of a difference is right unless it overflows. -/
theorem isNegative_sub :
    (w.isNegative ((a + w.modulus - b) % w.modulus) != w.overflows (w.toSigned a - w.toSigned b)) =
      decide (w.toSigned a < w.toSigned b) := by
  have hsa := w.toSigned_cases a
  have hsb := w.toSigned_cases b
  have hwrap := mod_of_lt_twice (n := a + w.modulus - b) (m := w.modulus) (by omega)
  rw [modulus_eq] at *
  rw [Bool.eq_iff_iff]
  simp only [isNegative, overflows, bne_iff_ne, ne_eq, decide_eq_decide, decide_eq_true_eq]
  split_ifs at hwrap <;> omega

end

end Width

theorem getLsbD_of_apart {bits mask : UInt8} (h : bits &&& mask = 0) (i : Nat) :
    (bits.toBitVec.getLsbD i && mask.toBitVec.getLsbD i) = false := by
  rw [← BitVec.getLsbD_and, ← UInt8.toBitVec_and, h]
  exact BitVec.getLsbD_zero

/-- Setting bits does not show under a mask that is apart from them. -/
theorem or_and_of_apart {bits mask : UInt8} (h : bits &&& mask = 0) (cc : UInt8) :
    (cc ||| bits) &&& mask = cc &&& mask := by
  apply UInt8.toBitVec_inj.mp
  apply BitVec.eq_of_getLsbD_eq
  intro i _
  have hi := getLsbD_of_apart h i
  simp only [UInt8.toBitVec_and, UInt8.toBitVec_or, BitVec.getLsbD_and, BitVec.getLsbD_or]
  cases hbit : bits.toBitVec.getLsbD i with
  | false => rw [Bool.or_false]
  | true =>
      rw [hbit, Bool.true_and] at hi
      rw [hi, Bool.and_false, Bool.and_false]

/-- Clearing bits does not show under a mask that is apart from them. -/
theorem and_not_and_of_apart {bits mask : UInt8} (h : bits &&& mask = 0) (cc : UInt8) :
    cc &&& ~~~bits &&& mask = cc &&& mask := by
  apply UInt8.toBitVec_inj.mp
  apply BitVec.eq_of_getLsbD_eq
  intro i hlt
  have hi := getLsbD_of_apart h i
  simp only [UInt8.toBitVec_and, UInt8.toBitVec_not, BitVec.getLsbD_and, BitVec.getLsbD_not, hlt,
    decide_true, Bool.true_and]
  cases hbit : bits.toBitVec.getLsbD i with
  | false => rw [Bool.not_false, Bool.and_true]
  | true =>
      rw [hbit, Bool.true_and] at hi
      rw [hi, Bool.and_false, Bool.and_false]

theorem or_and_self (cc mask : UInt8) : (cc ||| mask) &&& mask = mask := by
  apply UInt8.toBitVec_inj.mp
  apply BitVec.eq_of_getLsbD_eq
  intro i _
  simp only [UInt8.toBitVec_and, UInt8.toBitVec_or, BitVec.getLsbD_and, BitVec.getLsbD_or]
  cases mask.toBitVec.getLsbD i with
  | false => exact Bool.and_false _
  | true => rw [Bool.or_true, Bool.true_and]

theorem and_not_and_self (cc mask : UInt8) : cc &&& ~~~mask &&& mask = 0 := by
  rw [UInt8.and_assoc, UInt8.not_and_self, UInt8.and_zero]

namespace FlagChange

def get (u : FlagChange) : Flag → Option Bool
  | .carry => u.carry
  | .zero => u.zero
  | .negative => u.negative
  | .overflow => u.overflow

/-- The condition codes that a change settles. -/
def settled (u : FlagChange) : List Flag := Flag.all.filter fun f => (u.get f).isSome

theorem applyBit_and {f : Flag} {change : Option Bool} {mask : UInt8}
    (h : change.isSome → f.mask &&& mask = 0) (cc : UInt8) :
    applyBit f change cc &&& mask = cc &&& mask := by
  cases change with
  | none => rfl
  | some on =>
      have happart := h rfl
      cases on with
      | true => exact or_and_of_apart happart cc
      | false => exact and_not_and_of_apart happart cc

/-- A change leaves the bits alone that it does not settle. -/
theorem apply_and {u : FlagChange} {mask : UInt8} (h : ∀ f ∈ u.settled, f.mask &&& mask = 0)
    (cc : UInt8) : u.apply cc &&& mask = cc &&& mask := by
  have hbit (f : Flag) : (u.get f).isSome → f.mask &&& mask = 0 := by
    intro hf
    refine h f (List.mem_filter.mpr ⟨?_, hf⟩)
    cases f <;> decide
  show applyBit .overflow (u.get .overflow) (applyBit .negative (u.get .negative)
    (applyBit .zero (u.get .zero) (applyBit .carry (u.get .carry) cc))) &&& mask = cc &&& mask
  rw [applyBit_and (hbit .overflow), applyBit_and (hbit .negative), applyBit_and (hbit .zero),
    applyBit_and (hbit .carry)]

theorem mask_and_mask {f g : Flag} (h : f ≠ g) : f.mask &&& g.mask = 0 := by
  cases f <;> cases g <;> first | rfl | exact (h rfl).elim

/-- A changed bit is as the change says, and stays as it was if the change does not name it. -/
theorem applyBit_flag (f g : Flag) (change : Option Bool) (cc : UInt8) :
    (applyBit f change cc &&& g.mask != 0) =
      if f = g then change.getD (cc &&& g.mask != 0) else cc &&& g.mask != 0 := by
  split
  · next h =>
    subst h
    match change with
    | none => rfl
    | some false =>
        rw [applyBit, and_not_and_self]
        rfl
    | some true =>
        rw [applyBit, or_and_self]
        cases f <;> rfl
  · next h => rw [applyBit_and fun _ => mask_and_mask h]

/-- A changed byte shows what the change names, and what it does not name is as it was. -/
theorem flag_apply (u : FlagChange) (file : RegisterFile) (f : Flag) :
    ({ file with cc := u.apply file.cc } : RegisterFile).flag f =
      (u.get f).getD (file.flag f) := by
  unfold RegisterFile.flag
  simp only [apply, applyBit_flag]
  cases f <;> rfl

end FlagChange

namespace Alu

/-- The condition codes of a value, with those of how it came about. -/
def codes (w : Width) (value : Nat) (carry overflow : Option Bool) : FlagChange where
  carry := carry
  zero := some (value == 0)
  negative := some (value.testBit (w.bits - 1))
  overflow := overflow

/-- A result that is an integer cut to a width. -/
structure Gives (w : Width) (r : Result) (n : Int) (carry overflow : Option Bool) : Prop where
  value : (r.value.toNat : Int) = n % w.modulus
  flags : r.flags = codes w r.value.toNat carry overflow

/-- A result that leaves the carry alone. -/
def Result.keepingCarry (r : Result) : Result := { r with flags := { r.flags with carry := none } }

section
variable {w : Width}

theorem toNat_ofNat_of_fits {n : Nat} (h : n < w.modulus) : (UInt16.ofNat n).toNat = n := by
  have := w.modulus_le
  exact toNat_ofNat_of_le (by omega)

theorem describing_eq {n : Nat} (h : n < w.modulus) :
    FlagChange.describing w n = codes w n none none := by
  rw [FlagChange.describing, codes, Width.testBit_eq h]

/-- A number that fits is given as it is. -/
theorem gives_of_fits {r : Result} {n : Nat} {i : Int} {carry overflow : Option Bool}
    (h : n < w.modulus) (hi : (n : Int) = i % w.modulus) (hvalue : r.value.toNat = n)
    (hflags : r.flags = { FlagChange.describing w n with carry, overflow }) :
    Gives w r i carry overflow := by
  refine ⟨by rw [hvalue, hi], ?_⟩
  rw [hflags, hvalue, describing_eq h]
  rfl

end

variable (w : Width) (x y : UInt16)

theorem gives_add : Gives w (add w x y) (w.cut x + w.cut y)
    (some (w.carries (w.cut x + w.cut y))) (some (w.overflows (w.signed x + w.signed y))) := by
  have hx := w.cut_lt x
  have hy := w.cut_lt y
  have hcarry : decide (w.modulus ≤ w.cut x + w.cut y) = w.carries (w.cut x + w.cut y) := by
    rw [Width.carries, decide_eq_decide]
    omega
  rw [w.signed_eq, w.signed_eq, ← Width.overflows_add hx hy, ← hcarry]
  have hsum : (w.cut x + w.cut y) % w.modulus < w.modulus := Nat.mod_lt _ (by omega)
  exact gives_of_fits hsum (Int.natCast_mod ..) (toNat_ofNat_of_fits hsum) rfl

theorem toNat_sub_value :
    (sub w x y).value.toNat = (w.cut x + w.modulus - w.cut y) % w.modulus :=
  toNat_ofNat_of_fits (Nat.mod_lt _ (Nat.zero_lt_of_lt (w.cut_lt x)))

theorem gives_sub : Gives w (sub w x y) (w.cut x - w.cut y)
    (some (w.carries (w.cut x - w.cut y))) (some (w.overflows (w.signed x - w.signed y))) := by
  have hx := w.cut_lt x
  have hy := w.cut_lt y
  have hcarry : decide (w.cut x < w.cut y) = w.carries (w.cut x - w.cut y) := by
    rw [Width.carries, decide_eq_decide]
    omega
  have hvalue : ((w.cut x + w.modulus - w.cut y) % w.modulus : Nat) =
      ((w.cut x : Int) - w.cut y) % w.modulus := by
    have hcast : ((w.cut x + w.modulus - w.cut y : Nat) : Int) =
        (w.cut x : Int) - w.cut y + w.modulus := by omega
    rw [Int.natCast_mod, hcast, Int.add_emod_right]
  rw [w.signed_eq, w.signed_eq, ← Width.overflows_sub hx hy, ← hcarry]
  exact gives_of_fits (Nat.mod_lt _ (by omega)) hvalue (toNat_sub_value w x y) rfl

/-- Subtracting takes back what was added. -/
theorem sub_add : (sub w (add w x y).value y).value.toNat = w.cut x := by
  have hadd := (gives_add w x y).value
  have hsub := (gives_sub w (add w x y).value y).value
  have hcut : (w.cut (add w x y).value : Int) = (add w x y).value.toNat % w.modulus :=
    Int.natCast_mod ..
  rw [hcut, hadd, Int.emod_emod, Int.emod_sub_emod, add_sub_cancel_right] at hsub
  have hx := w.cut_lt x
  rw [Int.emod_eq_of_lt (by omega) (by omega)] at hsub
  exact Int.ofNat_inj.mp hsub

theorem cut_one : w.cut 1 = 1 := by
  cases w <;> rfl

theorem inc_eq : inc w x = (add w x 1).keepingCarry := by
  have hx := w.cut_lt x
  have hpos := w.one_lt_sign
  have hoverflow : (w.cut x == w.sign - 1) = (w.isNegative (w.cut x) == w.isNegative 1 &&
      w.isNegative ((w.cut x + 1) % w.modulus) != w.isNegative (w.cut x)) := by
    rw [mod_of_lt_twice (by omega), Bool.eq_iff_iff, w.modulus_eq] at *
    simp only [Width.isNegative, Bool.and_eq_true, bne_iff_ne, ne_eq, decide_eq_decide,
      beq_iff_eq]
    split_ifs <;> omega
  rw [inc, add, cut_one, hoverflow]
  rfl

theorem dec_eq : dec w x = (sub w x 1).keepingCarry := by
  have hx := w.cut_lt x
  have hpos := w.one_lt_sign
  have hoverflow : (w.cut x == w.sign) = (w.isNegative (w.cut x) != w.isNegative 1 &&
      w.isNegative ((w.cut x + w.modulus - 1) % w.modulus) != w.isNegative (w.cut x)) := by
    rw [mod_of_lt_twice (by omega), Bool.eq_iff_iff, w.modulus_eq] at *
    simp only [Width.isNegative, Bool.and_eq_true, bne_iff_ne, ne_eq, decide_eq_decide,
      beq_iff_eq]
    split_ifs <;> omega
  rw [dec, sub, cut_one, hoverflow]
  rfl

theorem load_eq : load w x = codes w (w.cut x) none (some false) := by
  rw [load, describing_eq (w.cut_lt x)]
  rfl

/-- A bitwise operation cannot leave the width. -/
theorem gives_bitwise {f : Nat → Nat → Nat} (h : f (w.cut x) (w.cut y) < w.modulus) :
    Gives w (bitwise f w x y) (f (w.cut x) (w.cut y) : Nat) none (some false) := by
  have hvalue : (UInt16.ofNat (f (w.cut x) (w.cut y))).toNat = f (w.cut x) (w.cut y) :=
    toNat_ofNat_of_fits h
  refine ⟨?_, ?_⟩
  · rw [← Int.natCast_mod, Nat.mod_eq_of_lt h]
    exact congrArg Nat.cast hvalue
  · have hcut : w.cut (bitwise f w x y).value = (bitwise f w x y).value.toNat := by
      rw [Width.cut]
      exact Nat.mod_eq_of_lt (lt_of_eq_of_lt hvalue h)
    rw [← hcut]
    exact load_eq w _

theorem gives_clr : Gives w clr 0 (some false) (some false) := by
  cases w <;> exact ⟨rfl, rfl⟩

theorem toNat_lowByte_eq : (lowByte x).toNat = Width.byte.cut x := toNat_lowByte x

theorem cut_byte_lt : Width.byte.cut x < 256 := Width.byte.cut_lt x

theorem gives_com : Gives .byte (com x) (255 - Width.byte.cut x) (some true) (some false) := by
  have hx := cut_byte_lt x
  have hnot : (~~~(lowByte x)).toNat = 255 - Width.byte.cut x := by
    rw [UInt8.toNat_not, toNat_lowByte_eq]
    rfl
  have hmod : ((255 - Width.byte.cut x : Nat) : Int) = (255 - Width.byte.cut x : Int) % 256 := by
    omega
  exact gives_of_fits (Nat.lt_succ_of_le (Nat.sub_le _ _)) hmod
    (by rw [com, UInt8.toNat_toUInt16, hnot]) (by rw [com, hnot])

theorem gives_lsl : Gives .byte (lsl x) (2 * Width.byte.cut x)
    (some ((Width.byte.cut x).testBit 7))
    (some ((lsl x).value.toNat.testBit 7 ^^ (Width.byte.cut x).testBit 7)) := by
  have hshift : Width.byte.cut x * 2 % 256 < Width.byte.modulus := Nat.mod_lt _ (by decide)
  have hvalue : (lsl x).value.toNat = Width.byte.cut x * 2 % 256 := by
    rw [lsl, toNat_lowByte_eq]
    exact toNat_ofNat_of_fits hshift
  have htop : (Width.byte.cut x).testBit 7 = Width.byte.isNegative (Width.byte.cut x) :=
    Width.testBit_eq (w := .byte) (cut_byte_lt x)
  have hresult : (Width.byte.cut x * 2 % 256).testBit 7 =
      Width.byte.isNegative (Width.byte.cut x * 2 % 256) := Width.testBit_eq hshift
  have hmod : ((Width.byte.cut x * 2 % 256 : Nat) : Int) = 2 * (Width.byte.cut x : Int) % 256 := by
    omega
  refine gives_of_fits hshift hmod hvalue ?_
  rw [hvalue, htop, hresult, lsl, toNat_lowByte_eq]

theorem gives_lsr : Gives .byte (lsr x) (Width.byte.cut x / 2)
    (some ((Width.byte.cut x).testBit 0)) none := by
  have hx := cut_byte_lt x
  have hhalf : Width.byte.cut x / 2 < 256 := by omega
  have hmod : ((Width.byte.cut x / 2 : Nat) : Int) = (Width.byte.cut x : Int) / 2 % 256 := by
    omega
  refine gives_of_fits hhalf hmod ?_ ?_
  · rw [lsr, toNat_lowByte_eq]
    exact toNat_ofNat_of_fits (w := .byte) hhalf
  · rw [lsr, toNat_lowByte_eq, Nat.testBit_zero]
    rfl

theorem negative_lsr : (lsr x).flags.negative = some false := by
  have hx := cut_byte_lt x
  rw [lsr, toNat_lowByte_eq]
  show some (decide (128 ≤ Width.byte.cut x / 2)) = some false
  rw [decide_eq_false (by omega)]

/-- Arithmetic is that of the integers, cut to the width, and condition codes say when it is not. -/
theorem results_exact :
    Gives w (run .add w x y) (w.cut x + w.cut y)
        (some (w.carries (w.cut x + w.cut y))) (some (w.overflows (w.signed x + w.signed y))) ∧
      Gives w (run .sub w x y) (w.cut x - w.cut y)
        (some (w.carries (w.cut x - w.cut y))) (some (w.overflows (w.signed x - w.signed y))) ∧
      (run .sub w (run .add w x y).value y).value.toNat = w.cut x ∧
      inc w x = (run .add w x 1).keepingCarry ∧
      dec w x = (run .sub w x 1).keepingCarry ∧
      Gives w (run .and w x y) (w.cut x &&& w.cut y : Nat) none (some false) ∧
      Gives w (run .or w x y) (w.cut x ||| w.cut y : Nat) none (some false) ∧
      Gives w (run .eor w x y) (w.cut x ^^^ w.cut y : Nat) none (some false) ∧
      load w x = codes w (w.cut x) none (some false) ∧
      Gives w clr 0 (some false) (some false) ∧
      Gives .byte (com x) (255 - Width.byte.cut x) (some true) (some false) ∧
      Gives .byte (lsl x) (2 * Width.byte.cut x) (some ((Width.byte.cut x).testBit 7))
        (some ((lsl x).value.toNat.testBit 7 ^^ (Width.byte.cut x).testBit 7)) ∧
      Gives .byte (lsr x) (Width.byte.cut x / 2) (some ((Width.byte.cut x).testBit 0)) none ∧
      (lsr x).flags.negative = some false ∧
      ∀ (u : FlagChange) (file : RegisterFile),
        (∀ f, ({ file with cc := u.apply file.cc } : RegisterFile).flag f =
          (u.get f).getD (file.flag f)) ∧
        u.apply file.cc &&& 0xF0 = file.cc &&& 0xF0 := by
  have hx := w.cut_lt x
  have hy := w.cut_lt y
  refine ⟨gives_add w x y, gives_sub w x y, sub_add w x y, inc_eq w x, dec_eq w x,
    gives_bitwise w x y (Nat.and_lt_two_pow _ hy), gives_bitwise w x y (Nat.or_lt_two_pow hx hy),
    gives_bitwise w x y (Nat.xor_lt_two_pow hx hy), load_eq w x, gives_clr w, gives_com x,
    gives_lsl x, gives_lsr x, negative_lsr x, fun u file => ⟨u.flag_apply file, ?_⟩⟩
  exact FlagChange.apply_and (fun f _ => by cases f <;> rfl) _

end Alu

end B33
