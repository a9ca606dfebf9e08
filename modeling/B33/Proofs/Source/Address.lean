import B33.Address
import B33.Proofs.Source.Literal
import B33.Proofs.Text.Blank

/-!
# Written addresses and numbers in source text

An address is written as a hexadecimal or decimal number of source text that is below 65536, and
means the same. Both are compared with what a number is made of, a sign and its digits. They differ
in one point: an address may have a plus sign before its digits, which no number has.
-/
namespace B33

namespace Numeral

theorem IsDigit.isAlphanum {base d : Nat} {c : Char} (h : IsDigit base c d) (hbase : base ≤ 36) :
    c.isAlphanum = true := by
  have hall : ∀ d < 36, (digitChar d).isAlphanum = true := by decide
  rw [← isAlphanum_toUpper, h.2]
  exact hall d (Nat.lt_of_lt_of_le h.1 hbase)

theorem IsDigit.isDigit {d : Nat} {c : Char} (h : IsDigit 10 c d) : c.isDigit = true := by
  have hall : ∀ d < 10, (digitChar d).isAlpha = false ∧ (digitChar d).isDigit = true := by decide
  obtain ⟨halpha, hdigit⟩ := hall d h.1
  rwa [(toUpper_eq_iff halpha c).mp h.2]

theorem Denotes.isAlphanum {base n : Nat} {cs : List Char} (h : Denotes base cs n)
    (hbase : base ≤ 36) : ∀ c ∈ cs, c.isAlphanum = true := by
  obtain ⟨-, ds, hds, -⟩ := h
  intro c hc
  obtain ⟨i, hi, rfl⟩ := List.mem_iff_getElem.mp hc
  exact (hds.get hi (hds.length_eq ▸ hi)).isAlphanum hbase

/-- A decimal numeral begins with a decimal digit. -/
theorem Denotes.exists_isDigit {n : Nat} {cs : List Char} (h : Denotes 10 cs n) :
    ∃ c rest, cs = c :: rest ∧ c.isDigit = true := by
  obtain ⟨hne, ds, hds, -⟩ := h
  cases hds with
  | nil => exact (hne rfl).elim
  | cons hd _ => exact ⟨_, _, rfl, hd.isDigit⟩

end Numeral

theorem trim_eq_self {cs : List Char} (hfirst : ∀ c ∈ cs.head?, isBlank c = false)
    (hlast : ∀ c ∈ cs.getLast?, isBlank c = false) : trim cs = cs := by
  have hdrop {l : List Char} (h : ∀ c ∈ l.head?, isBlank c = false) : l.dropWhile isBlank = l := by
    cases l with
    | nil => rfl
    | cons c l => exact List.dropWhile_cons_of_neg (by simp [h c rfl])
  rw [trim, trimEnd, hdrop hfirst, hdrop (by rwa [List.head?_reverse]), List.reverse_reverse]

namespace Source

variable {radix : Radix} {sign s : List Char} {n more : Nat}

theorem Introduces.unique {radix' : Radix} {sign' s' : List Char} (h : Introduces radix sign s)
    (h' : Introduces radix' sign' s') (heq : sign ++ s = sign' ++ s') :
    radix = radix' ∧ sign = sign' ∧ s = s' := by
  cases h <;> cases h' <;> simp_all
  -- What is left is a sign that would have to be a digit.
  all_goals
    obtain ⟨rfl, -⟩ := heq
    contradiction

theorem Introduces.plus_not_mem (h : Introduces radix sign s) : '+' ∉ sign := by
  cases h with
  | dollar | percent => decide
  | ampersand hh => rcases hh with rfl | rfl <;> decide
  | digit => exact List.not_mem_nil

theorem base_le (radix : Radix) : radix.base ≤ 36 := by cases radix <;> decide

theorem HasValue.isAlphanum (h : HasValue radix s n) : ∀ c ∈ s, c.isAlphanum = true :=
  h.1.isAlphanum (base_le radix)

theorem ofWord_ne_number (word : String) : TokenKind.ofWord word ≠ .number radix n := by
  unfold TokenKind.ofWord
  split <;> nofun

/-- What a number is made of. Behind it the rest of the line goes on. -/
def IsMadeOf (radix : Radix) (n : Nat) (sign s tail : List Char) (cs : List Char) (more : Nat) :
    Prop :=
  Introduces radix sign s ∧ HasValue radix s n ∧ cs = sign ++ s ++ tail ∧
    more = sign.length + s.length - 1

theorem exists_of_scanNumber {radix' : Radix} {rest : List Char}
    (hsign : ∀ s, Introduces radix' sign s)
    (h : scanNumber radix' sign rest = .ok (.number radix n, more)) :
    ∃ s tail, IsMadeOf radix n sign s tail (sign ++ rest) more := by
  rw [scanNumber_eq] at h
  obtain ⟨kind, hkind, heq⟩ := map_eq_ok_iff.mp h
  obtain ⟨m, hm, rfl⟩ := numberKind_eq_ok_iff_hasValue.mp hkind
  cases heq
  refine ⟨_, rest.dropWhile Char.isAlphanum, hsign _, hm, ?_, rfl⟩
  rw [List.append_assoc, List.takeWhile_append_dropWhile]

/-- Where a number is scanned there are a sign and digits that give it its value. -/
theorem exists_of_scan {c : Char} {rest : List Char}
    (h : scan c rest = .ok (.number radix n, more)) :
    ∃ sign s tail, IsMadeOf radix n sign s tail (c :: rest) more := by
  by_cases hb : isLineBlank c = true
  · rw [scan_blank hb] at h
    cases h
  by_cases hc : StartsWord c
  · rw [scan_word hc, Except.ok.injEq, Prod.mk.injEq] at h
    exact (ofWord_ne_number _ h.1).elim
  by_cases hd : c.isDigit = true
  · rw [scan_digit hd] at h
    obtain ⟨kind, hkind, heq⟩ := map_eq_ok_iff.mp h
    obtain ⟨m, hm, rfl⟩ := numberKind_eq_ok_iff_hasValue.mp hkind
    cases heq
    refine ⟨[], _, rest.dropWhile Char.isAlphanum, .digit hd, hm, ?_, ?_⟩
    · rw [List.nil_append, List.cons_append, List.takeWhile_append_dropWhile]
    · simp
  unfold scan at h
  rw [if_neg hb] at h
  split at h
  case h_7 => exact ⟨_, exists_of_scanNumber (fun _ => .dollar) h⟩
  case h_8 =>
    split at h
    · exact ⟨_, exists_of_scanNumber (fun _ => .ampersand (.inl rfl)) h⟩
    · exact ⟨_, exists_of_scanNumber (fun _ => .ampersand (.inr rfl)) h⟩
    · cases h
  case h_9 => exact ⟨_, exists_of_scanNumber (fun _ => .percent) h⟩
  case h_10 =>
    dsimp only at h
    split at h <;> cases h
  case h_11 =>
    rw [if_neg hd, if_neg (by simpa [StartsWord] using hc)] at h
    cases h
  all_goals cases h

/-- Whether a line is a single token, a hexadecimal or decimal number with a value. -/
def IsNumber (number : Nat) (text : String) (n : Nat) : Prop :=
  ∃ t radix, tokenizeLine number text = .ok [t] ∧ t.kind = .number radix n ∧ radix ≠ .binary

theorem isNumber_iff {number : Nat} {text : String} :
    IsNumber number text n ↔ ∃ radix sign s, radix ≠ .binary ∧ Introduces radix sign s ∧
      HasValue radix s n ∧ text.toList = sign ++ s := by
  constructor
  · rintro ⟨t, radix, hline, hkind, hradix⟩
    have hend : Reaches number text ([] ++ [t]) [] := tokenizeLine_eq_ok_iff.mp hline
    obtain ⟨c, left, more, hplace, hscan⟩ := hend.exists_scan_of_append
    -- There is no other token, so nothing is left behind the one that is scanned.
    have hnext := hplace.token hscan
    obtain ⟨after, htokens, -⟩ := hnext.exists_append hline
    rw [List.nil_append, List.singleton_append] at htokens
    rw [List.nil_append, ← (List.cons.inj htokens).1] at hnext
    have hlength := List.drop_eq_nil_iff.mp (hnext.rest_unique hend)
    rw [hkind] at hscan
    obtain ⟨sign, s, tail, hsign, hvalue, hchars, rfl⟩ := exists_of_scan hscan
    have hline := hplace.toList_eq
    rw [joinText_nil, String.toList_empty, List.nil_append, hchars] at hline
    have htail : tail = [] := by
      have htotal := congrArg List.length hchars
      have hpos := List.length_pos_iff.mpr hvalue.1.1
      simp only [List.length_cons, List.length_append] at htotal
      exact List.length_eq_zero_iff.mp (by omega)
    exact ⟨radix, sign, s, hradix, hsign, hvalue, by rw [hline, htail, List.append_nil]⟩
  · rintro ⟨radix, sign, s, hradix, hsign, hvalue, hline⟩
    have hnothing : ∀ c ∈ ([] : List Char).head?, c.isAlphanum = false := nofun
    obtain ⟨c, rest, hchars, hscan⟩ := scan_introduced hvalue.isAlphanum hnothing hsign
    rw [numberKind_eq_ok_iff_hasValue.mpr ⟨n, hvalue, rfl⟩] at hscan
    rw [List.append_nil] at hchars
    have hnone : rest.drop (sign.length + s.length - 1) = [] := by
      have htotal := congrArg List.length hchars
      simp only [List.length_cons, List.length_append] at htotal
      exact List.drop_eq_nil_of_le (by omega)
    have hlexes : Lexes (c :: rest) [.number radix n] := .cons hscan (by rw [hnone]; exact .nil)
    rw [← hchars, ← hline] at hlexes
    obtain ⟨ts, hts, hkinds, -⟩ := hlexes.tokenizeLine_eq number
    obtain ⟨t, rfl, hkind⟩ := List.map_eq_singleton_iff.mp hkinds
    exact ⟨t, radix, hts, hkind, hradix⟩

end Source

namespace Address
open Source

variable {cs ds : List Char} {w : UInt16}

theorem base_announced (cs : List Char) : (announced cs).1 ≤ 36 := by
  unfold announced
  split <;> simp

theorem value?_eq_some_iff_denotes :
    value? cs = some w ↔
      Numeral.Denotes (announced cs).1 (afterPlus (announced cs).2) w.toNat := by
  rw [← Numeral.value?_eq_some_iff (base_announced cs)]
  unfold value?
  generalize announced cs = sign
  dsimp only
  have hw := w.toNat_lt
  cases Numeral.value? sign.1 (afterPlus sign.2) with
  | none => simp
  | some n =>
      dsimp only
      split_ifs with hn
      · rw [Option.some.injEq, Option.some.injEq, ← UInt16.toNat_inj, UInt16.toNat_ofNat_of_lt' hn]
      · exact iff_of_false nofun fun heq => hn (Option.some.inj heq ▸ hw)

/-- One plus sign may stand before the digits. -/
theorem denotes_afterPlus_iff {base n : Nat} (hbase : base ≤ 36) :
    Numeral.Denotes base (afterPlus ds) n ↔
      ∃ s, Numeral.Denotes base s n ∧ (ds = s ∨ ds = '+' :: s) := by
  constructor
  · intro h
    refine ⟨afterPlus ds, h, ?_⟩
    unfold afterPlus
    split
    · exact .inr rfl
    · exact .inl rfl
  · rintro ⟨s, hs, rfl | rfl⟩
    · unfold afterPlus
      split
      · exact absurd (hs.isAlphanum hbase '+' List.mem_cons_self) (by decide)
      · exact hs
    · exact hs

section
variable (hx : ¬['0', 'x'] <+: cs) (hX : ¬['0', 'X'] <+: cs)
include hx hX

/-- The sign of a number announces its base. -/
theorem announced_eq {radix : Radix} {sign s : List Char} (hradix : radix ≠ .binary)
    (hsign : Introduces radix sign s) (hcs : cs = sign ++ ds) (hds : ds = s ∨ ds = '+' :: s) :
    announced cs = (radix.base, ds) := by
  subst hcs
  cases hsign with
  | dollar => rfl
  | ampersand hh => rcases hh with rfl | rfl <;> rfl
  | percent => exact (hradix rfl).elim
  | digit hc =>
      rcases hds with rfl | rfl
      · rw [List.nil_append] at hx hX ⊢
        unfold announced
        split
        case h_1 | h_4 | h_5 =>
          next heq =>
          cases heq
          cases hc
        case h_2 =>
          next heq => exact (hx ⟨_, heq.symm⟩).elim
        case h_3 =>
          next heq => exact (hX ⟨_, heq.symm⟩).elim
        case h_6 => rfl
      · rfl

/-- An announced base is that of a sign, if digits follow. -/
theorem exists_introduces {s : List Char} {n : Nat} (h : Numeral.Denotes (announced cs).1 s n)
    (hds : (announced cs).2 = s ∨ (announced cs).2 = '+' :: s) :
    ∃ radix sign, radix ≠ .binary ∧ Introduces radix sign s ∧
      (announced cs).1 = radix.base ∧ cs = sign ++ (announced cs).2 := by
  unfold announced at h hds ⊢
  split at h
  case h_1 => exact ⟨.hexadecimal, ['$'], nofun, .dollar, rfl, rfl⟩
  case h_2 => exact (hx ⟨_, rfl⟩).elim
  case h_3 => exact (hX ⟨_, rfl⟩).elim
  case h_4 => exact ⟨.hexadecimal, ['&', 'H'], nofun, .ampersand (.inl rfl), rfl, rfl⟩
  case h_5 => exact ⟨.hexadecimal, ['&', 'h'], nofun, .ampersand (.inr rfl), rfl, rfl⟩
  case h_6 =>
    obtain ⟨c, rest, rfl, hc⟩ := Numeral.Denotes.exists_isDigit h
    exact ⟨.decimal, [], nofun, .digit hc, rfl, rfl⟩

/-- An address is made of what a number is made of, and may have a plus sign in between. -/
theorem value?_eq_some_iff :
    value? cs = some w ↔ ∃ radix sign s, radix ≠ .binary ∧ Introduces radix sign s ∧
      HasValue radix s w.toNat ∧ (cs = sign ++ s ∨ cs = sign ++ '+' :: s) := by
  rw [value?_eq_some_iff_denotes, denotes_afterPlus_iff (base_announced cs)]
  constructor
  · rintro ⟨s, hs, hds⟩
    obtain ⟨radix, sign, hradix, hsign, hbase, hcs⟩ := exists_introduces hx hX hs hds
    have hw := w.toNat_lt
    rw [hbase] at hs
    refine ⟨radix, sign, s, hradix, hsign, ⟨hs, by omega⟩, ?_⟩
    rcases hds with hds | hds
    · exact .inl (hds ▸ hcs)
    · exact .inr (hds ▸ hcs)
  · rintro ⟨radix, sign, s, hradix, hsign, hvalue, hcs⟩
    obtain ⟨ds, hds, hcs⟩ : ∃ ds, (ds = s ∨ ds = '+' :: s) ∧ cs = sign ++ ds := by
      rcases hcs with hcs | hcs
      · exact ⟨_, .inl rfl, hcs⟩
      · exact ⟨_, .inr rfl, hcs⟩
    rw [announced_eq hx hX hradix hsign hcs hds]
    exact ⟨s, hvalue.1, hds⟩

end

/-- An address means the same as a number of source text, or as one that a plus sign is taken out
of. No number has a plus sign. -/
theorem parse_eq_ok_iff_isNumber {s : String} (hfirst : ∀ c ∈ s.toList.head?, isBlank c = false)
    (hlast : ∀ c ∈ s.toList.getLast?, isBlank c = false) (hx : ¬['0', 'x'] <+: s.toList)
    (hX : ¬['0', 'X'] <+: s.toList) (number : Nat) (n : UInt16) :
    (parse s = .ok n ↔ IsNumber number s n.toNat ∨
      ∃ radix sign digits, Introduces radix sign digits ∧ s.toList = sign ++ '+' :: digits ∧
        IsNumber number (.ofList (sign ++ digits)) n.toNat) ∧
    ('+' ∈ s.toList → ∀ n, ¬IsNumber number s n) := by
  have hparse : parse s = .ok n ↔ value? s.toList = some n := by
    rw [parse, trim_eq_self hfirst hlast]
    cases value? s.toList <;> simp
  rw [hparse, value?_eq_some_iff hx hX]
  refine ⟨⟨?_, ?_⟩, ?_⟩
  · rintro ⟨radix, sign, digits, hradix, hsign, hvalue, hs | hs⟩
    · exact .inl (isNumber_iff.mpr ⟨radix, sign, digits, hradix, hsign, hvalue, hs⟩)
    · exact .inr ⟨radix, sign, digits, hsign, hs,
        isNumber_iff.mpr ⟨radix, sign, digits, hradix, hsign, hvalue, String.toList_ofList⟩⟩
  · rintro (h | ⟨radix, sign, digits, hsign, hs, h⟩)
    · obtain ⟨radix, sign, digits, hradix, hsign, hvalue, hs⟩ := isNumber_iff.mp h
      exact ⟨radix, sign, digits, hradix, hsign, hvalue, .inl hs⟩
    · obtain ⟨radix', sign', digits', hradix, hsign', hvalue, hs'⟩ := isNumber_iff.mp h
      rw [String.toList_ofList] at hs'
      obtain ⟨rfl, rfl, rfl⟩ := hsign.unique hsign' hs'
      exact ⟨radix, sign, digits, hradix, hsign, hvalue, .inr hs⟩
  · intro hplus m h
    obtain ⟨radix, sign, digits, -, hsign, hvalue, hs⟩ := isNumber_iff.mp h
    rw [hs, List.mem_append] at hplus
    rcases hplus with hplus | hplus
    · exact hsign.plus_not_mem hplus
    · exact absurd (hvalue.isAlphanum '+' hplus) (by decide)

/-- The largest address, in letters of both cases and with zeros before it. -/
theorem parse_of_zeros :
    (∀ c ∈ "&h00fFFf".toList.head?, isBlank c = false) ∧
      (∀ c ∈ "&h00fFFf".toList.getLast?, isBlank c = false) ∧
      ¬['0', 'x'] <+: "&h00fFFf".toList ∧ ¬['0', 'X'] <+: "&h00fFFf".toList ∧
      IsNumber 1 "&h00fFFf" 65535 ∧ parse "&h00fFFf" = .ok 65535 := by
  have hfirst : ∀ c ∈ "&h00fFFf".toList.head?, isBlank c = false := by
    rintro c ⟨⟩
    decide
  have hlast : ∀ c ∈ "&h00fFFf".toList.getLast?, isBlank c = false := by
    rintro c ⟨⟩
    decide
  have hx : ¬['0', 'x'] <+: "&h00fFFf".toList := by decide +kernel
  have hX : ¬['0', 'X'] <+: "&h00fFFf".toList := by decide +kernel
  have hnumber : IsNumber 1 "&h00fFFf" 65535 :=
    isNumber_iff.mpr ⟨.hexadecimal, ['&', 'h'], ['0', '0', 'f', 'F', 'F', 'f'], nofun,
      .ampersand (.inr rfl), ⟨(Numeral.value?_eq_some_iff (by decide)).mp (by decide), by decide⟩,
      rfl⟩
  exact ⟨hfirst, hlast, hx, hX, hnumber,
    (parse_eq_ok_iff_isNumber hfirst hlast hx hX 1 65535).1.mpr (.inl hnumber)⟩

/-- A plus sign between `$` and the digits makes no difference to an address, and source text
refuses it. -/
theorem accepts_plus_sign :
    trim "$+5".toList = "$+5".toList ∧ parse "$+5" = .ok 5 ∧
      tokenizeLine 1 "$+5" = .error ⟨1, .invalidNumber "$"⟩ := by decide +kernel

end Address
end B33
