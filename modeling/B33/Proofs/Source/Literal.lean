import B33.Proofs.Source.Lossless
import B33.Proofs.Text.Positional

/-!
# Numbers in source text

A number is written with a sign for its radix and then its digits, and a decimal number without a
sign. All letters and digits that follow the sign belong to the number. It is read as what they
denote, if they denote anything below 2^32, and otherwise the line is refused.
-/
namespace B33.Source

/-- What stands before the letters and digits of a number: a sign, or nothing if the first of them
is a decimal digit. -/
inductive Introduces : Radix → List Char → List Char → Prop
  | dollar {s : List Char} : Introduces .hexadecimal ['$'] s
  | ampersand {h : Char} {s : List Char} : h = 'H' ∨ h = 'h' → Introduces .hexadecimal ['&', h] s
  | percent {s : List Char} : Introduces .binary ['%'] s
  | digit {c : Char} {s : List Char} : c.isDigit = true → Introduces .decimal [] (c :: s)

/-- Whether the letters and digits of a number give it a value. -/
def HasValue (radix : Radix) (s : List Char) (n : Nat) : Prop :=
  Numeral.Denotes radix.base s n ∧ n < 2 ^ 32

theorem numberKind_eq_ok_iff_hasValue {radix : Radix} {s written : List Char} {kind : TokenKind} :
    numberKind radix s written = .ok kind ↔ ∃ n, HasValue radix s n ∧ kind = .number radix n := by
  have hbase : radix.base ≤ 36 := by cases radix <;> decide
  simp only [numberKind_eq_ok_iff, Numeral.value?_eq_some_iff hbase, HasValue, and_assoc,
    Nat.reducePow]

theorem numberKind_eq_error {radix : Radix} {s : List Char} (written : List Char)
    (h : ¬∃ n, HasValue radix s n) :
    numberKind radix s written = .error (.invalidNumber (.ofList written)) := by
  cases hkind : numberKind radix s written with
  | ok kind =>
      obtain ⟨n, hn, -⟩ := numberKind_eq_ok_iff_hasValue.mp hkind
      exact (h ⟨n, hn⟩).elim
  | error cause =>
      unfold numberKind at hkind
      split at hkind
      · split_ifs at hkind
        cases hkind
        rfl
      · cases hkind
        rfl

section
variable {radix : Radix} {sign s tail : List Char} (hs : ∀ x ∈ s, x.isAlphanum = true)
  (htail : ∀ x ∈ tail.head?, x.isAlphanum = false)
include hs htail

theorem scanNumber_append : scanNumber radix sign (s ++ tail) =
    (numberKind radix s (sign ++ s)).map (·, sign.length + s.length - 1) := by
  rw [scanNumber_eq, takeWhile_append_of_ends hs htail]

/-- A number is scanned to the last letter or digit, whether they make sense or not. -/
theorem scan_introduced (hsign : Introduces radix sign s) :
    ∃ c rest, sign ++ s ++ tail = c :: rest ∧
      scan c rest = (numberKind radix s (sign ++ s)).map (·, sign.length + s.length - 1) := by
  cases hsign with
  | dollar => exact ⟨'$', s ++ tail, rfl, scanNumber_append hs htail⟩
  | ampersand hh =>
      rcases hh with rfl | rfl
      · exact ⟨'&', 'H' :: (s ++ tail), rfl, scanNumber_append hs htail⟩
      · exact ⟨'&', 'h' :: (s ++ tail), rfl, scanNumber_append hs htail⟩
  | percent => exact ⟨'%', s ++ tail, rfl, scanNumber_append hs htail⟩
  | @digit c s hc =>
      refine ⟨c, s ++ tail, rfl, ?_⟩
      have htake : (s ++ tail).takeWhile Char.isAlphanum = s :=
        takeWhile_append_of_ends (fun x hx => hs x (List.mem_cons_of_mem c hx)) htail
      rw [scan_digit hc, htake]
      simp

end

namespace Reaches
variable {number : Nat} {text : String} {before : List Token} {rest : List Char}

/-- There is only one place behind given tokens. -/
theorem rest_unique {rest' : List Char} (h : Reaches number text before rest)
    (h' : Reaches number text before rest') : rest = rest' :=
  List.append_cancel_left (h.toList_eq.symm.trans h'.toList_eq)

/-- The last token before a place was scanned at the place before it. -/
theorem exists_scan_of_append {t : Token} (h : Reaches number text (before ++ [t]) rest) :
    ∃ c left more, Reaches number text before (c :: left) ∧ scan c left = .ok (t.kind, more) := by
  generalize hall : before ++ [t] = all at h
  cases h with
  | start => simp at hall
  | token hplace hscan =>
      obtain ⟨rfl, ht⟩ := List.append_inj' hall rfl
      cases ht
      exact ⟨_, _, _, hplace, hscan⟩

end Reaches

/-- The token of a number behind other tokens. -/
def numberToken (number : Nat) (before : List Token) (radix : Radix) (written : List Char)
    (n : Nat) : Token :=
  ⟨.number radix n, .ofList written, number, (joinText before).length⟩

/-- A number at any place of a line is a token with its positional value, if the letters and digits
that follow its sign are a numeral of the radix with a value below 2^32. Otherwise the line is
refused for it. -/
theorem number_positional {number : Nat} {text : String} {before : List Token} {radix : Radix}
    {sign s tail : List Char} (hplace : Reaches number text before (sign ++ s ++ tail))
    (hsign : Introduces radix sign s) (hs : ∀ x ∈ s, x.isAlphanum = true)
    (htail : ∀ x ∈ tail.head?, x.isAlphanum = false) :
    (∀ n, Reaches number text (before ++ [numberToken number before radix (sign ++ s) n]) tail ↔
      HasValue radix s n) ∧
    (∀ ts, tokenizeLine number text = .ok ts → ∃ n after, HasValue radix s n ∧
      ts = before ++ numberToken number before radix (sign ++ s) n :: after) ∧
    ((¬∃ n, HasValue radix s n) →
      tokenizeLine number text = .error ⟨number, .invalidNumber (.ofList (sign ++ s))⟩) := by
  obtain ⟨c, rest, hline, hscan⟩ := scan_introduced hs htail hsign
  have hfirst : Reaches number text before (c :: rest) := hline ▸ hplace
  have hyields {n : Nat} (hn : HasValue radix s n) :
      Reaches number text (before ++ [numberToken number before radix (sign ++ s) n]) tail := by
    rw [numberKind_eq_ok_iff_hasValue.mpr ⟨n, hn, rfl⟩] at hscan
    -- The first character is scanned on its own, and the others are those of the sign and of `s`.
    have hlength : sign.length + s.length - 1 + 1 = (sign ++ s).length := by
      have hpos : 0 < s.length := List.length_pos_iff.mpr hn.1.1
      rw [List.length_append]
      omega
    have htake : c :: rest.take (sign.length + s.length - 1) = sign ++ s := by
      rw [← List.take_succ_cons, hlength, ← hline, List.take_left]
    have hdrop : rest.drop (sign.length + s.length - 1) = tail := by
      rw [← List.drop_succ_cons (a := c), hlength, ← hline, List.drop_left]
    have hnext := hfirst.token hscan
    rwa [htake, hdrop] at hnext
  refine ⟨fun n => ⟨fun h => ?_, hyields⟩, ?_, ?_⟩
  · obtain ⟨c', rest', more, hbefore, htoken⟩ := h.exists_scan_of_append
    obtain ⟨rfl, rfl⟩ := List.cons.inj (hfirst.rest_unique hbefore)
    rw [hscan] at htoken
    obtain ⟨kind, hkind, heq⟩ := map_eq_ok_iff.mp htoken
    obtain ⟨m, hm, rfl⟩ := numberKind_eq_ok_iff_hasValue.mp hkind
    cases heq
    exact hm
  · intro ts hts
    by_cases hvalue : ∃ n, HasValue radix s n
    · obtain ⟨n, hn⟩ := hvalue
      obtain ⟨after, rfl, -⟩ := (hyields hn).exists_append hts
      exact ⟨n, after, hn, by simp⟩
    · rw [numberKind_eq_error _ hvalue] at hscan
      rw [hfirst.tokenizeLine_eq_error hscan] at hts
      cases hts
  · intro hvalue
    rw [numberKind_eq_error _ hvalue] at hscan
    exact hfirst.tokenizeLine_eq_error hscan

/-- The largest number, in letters of both cases and with zeros before it. -/
theorem number_positional_of_zeros :
    ∃ before, Reaches 1 "#&h00fFFfffFF,X" before
        (['&', 'h'] ++ ['0', '0', 'f', 'F', 'F', 'f', 'f', 'f', 'F', 'F'] ++ [',', 'X']) ∧
      HasValue .hexadecimal ['0', '0', 'f', 'F', 'F', 'f', 'f', 'f', 'F', 'F'] 4294967295 ∧
      Reaches 1 "#&h00fFFfffFF,X"
        (before ++ [numberToken 1 before .hexadecimal
          ['&', 'h', '0', '0', 'f', 'F', 'F', 'f', 'f', 'f', 'F', 'F'] 4294967295]) [',', 'X'] := by
  have hvalue :
      HasValue .hexadecimal ['0', '0', 'f', 'F', 'F', 'f', 'f', 'f', 'F', 'F'] 4294967295 :=
    ⟨(Numeral.value?_eq_some_iff (by decide)).mp (by decide +kernel), by decide⟩
  have hstart : Reaches 1 "#&h00fFFfffFF,X" []
      ['#', '&', 'h', '0', '0', 'f', 'F', 'F', 'f', 'f', 'f', 'F', 'F', ',', 'X'] := .start
  have hhash : scan '#' ['&', 'h', '0', '0', 'f', 'F', 'F', 'f', 'f', 'f', 'F', 'F', ',', 'X'] =
      .ok (.hash, 0) := rfl
  have hplace := hstart.token hhash
  have hdigits : ∀ x ∈ ['0', '0', 'f', 'F', 'F', 'f', 'f', 'f', 'F', 'F'], x.isAlphanum = true :=
    List.all_eq_true.mp rfl
  have htail : ∀ x ∈ [',', 'X'].head?, x.isAlphanum = false := by
    rintro _ ⟨⟩
    rfl
  exact ⟨_, hplace, hvalue,
    ((number_positional hplace (.ampersand (.inr rfl)) hdigits htail).1 _).mpr hvalue⟩

end B33.Source
