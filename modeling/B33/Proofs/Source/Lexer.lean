import B33.Source.Lexer
import B33.Proofs.Except
import B33.Proofs.Text.Numeral
import Mathlib.Data.List.TakeWhile

/-!
# Lexing piece by piece

A line that is put together from pieces falls apart into those pieces again, if no piece could go on
with the first character of the next. What every word of a line is read as depends on the word alone,
so a word that is a label once is a label wherever it stands.
-/
namespace B33.Source

/-- The kinds of the tokens of a rest of a line. -/
inductive Lexes : List Char → List TokenKind → Prop
  | nil : Lexes [] []
  | cons {c : Char} {rest : List Char} {kind : TokenKind} {more : Nat} {kinds : List TokenKind} :
      scan c rest = .ok (kind, more) → Lexes (rest.drop more) kinds →
      Lexes (c :: rest) (kind :: kinds)

theorem Lexes.eq_nil {kinds : List TokenKind} (h : Lexes [] kinds) : kinds = [] := by
  cases h
  rfl

theorem Lexes.scanOnto_eq {cs : List Char} {kinds : List TokenKind} (h : Lexes cs kinds)
    (line column : Nat) (found : Array Token) :
    ∃ ts : List Token, scanOnto line column found cs = .ok (found ++ ts.toArray) ∧
      ts.map (·.kind) = kinds ∧ ∀ t ∈ ts.head?, t.column = column := by
  induction h generalizing column found with
  | nil => exact ⟨[], by simp [scanOnto], rfl, by simp⟩
  | @cons c rest kind more kinds hscan _ ih =>
      obtain ⟨ts, hts, hkinds, -⟩ := ih (column + 1 + more)
        (found.push { kind, text := .ofList (c :: rest.take more), line, column })
      refine ⟨{ kind, text := .ofList (c :: rest.take more), line, column } :: ts, ?_, ?_, ?_⟩
      · rw [scanOnto, hscan]
        dsimp only
        rw [hts]
        simp
      · rw [List.map_cons, hkinds]
      · simp

theorem Lexes.tokenizeLine_eq {text : String} {kinds : List TokenKind}
    (h : Lexes text.toList kinds) (number : Nat) :
    ∃ ts, tokenizeLine number text = .ok ts ∧ ts.map (·.kind) = kinds ∧
      ∀ t ∈ ts.head?, t.column = 0 := by
  obtain ⟨ts, hts, hkinds, hcolumn⟩ := h.scanOnto_eq number 0 #[]
  refine ⟨ts, ?_, hkinds, hcolumn⟩
  rw [tokenizeLine, hts]
  simp [Except.map]

/-- Whether a rest of a line cannot go on with a word or a number. -/
def EndsWord (cs : List Char) : Prop := ∀ c ∈ cs.head?, isWordChar c = false

/-- Whether a rest of a line does not begin with a blank. -/
def EndsBlanks (cs : List Char) : Prop := ∀ c ∈ cs.head?, isLineBlank c = false

theorem takeWhile_append_of_ends {p : Char → Bool} {xs rest : List Char} (hx : ∀ x ∈ xs, p x = true)
    (hr : ∀ c ∈ rest.head?, p c = false) : (xs ++ rest).takeWhile p = xs := by
  rw [List.takeWhile_append_of_pos hx]
  cases rest with
  | nil => simp
  | cons c rest =>
      have hc : p c = false := hr c rfl
      simp [hc]

theorem isWordChar_of_isAlphanum {c : Char} (h : c.isAlphanum = true) : isWordChar c = true := by
  simp [isWordChar, h]

theorem EndsWord.isAlphanum {cs : List Char} (h : EndsWord cs) :
    ∀ c ∈ cs.head?, c.isAlphanum = false := by
  intro c hc
  have hword := h c hc
  rw [isWordChar, Bool.or_eq_false_iff] at hword
  exact hword.1

/-- Whether a word can begin with a character. -/
def StartsWord (c : Char) : Prop := c.isAlpha = true ∨ c = '_'

instance (c : Char) : Decidable (StartsWord c) := inferInstanceAs (Decidable (_ = true ∨ _ = _))

theorem isDigit_of_startsWord {c : Char} (h : StartsWord c) : c.isDigit = false := by
  rcases h with h | rfl
  · unfold Char.isAlpha Char.isUpper Char.isLower at h
    simp only [Bool.or_eq_true, decide_eq_true_eq,
      Bool.and_eq_true, ge_iff_le, UInt32.le_iff_toNat_le] at h
    simp only [Char.isDigit, Bool.and_eq_false_iff, decide_eq_false_iff_not, ge_iff_le,
      UInt32.le_iff_toNat_le]
    have hA : 'A'.val.toNat = 65 := rfl
    have ha : 'a'.val.toNat = 97 := rfl
    have h9 : '9'.val.toNat = 57 := rfl
    omega
  · rfl

theorem isLineBlank_of_startsWord {c : Char} (h : StartsWord c) : isLineBlank c = false := by
  rw [Bool.eq_false_iff]
  intro hb
  simp only [isLineBlank, Bool.or_eq_true, beq_iff_eq] at hb
  rcases hb with (rfl | rfl) | rfl
  · exact absurd h (by decide)
  · exact absurd h (by decide)
  · exact absurd h (by decide)

/-- A word and what it is read as. -/
structure IsWord (word : String) (kind : TokenKind) : Prop where
  kind : TokenKind.ofWord word = kind
  chars : ∃ c cs, word.toList = c :: cs ∧ StartsWord c ∧ ∀ x ∈ cs, isWordChar x = true

theorem IsWord.of_tail {word : String} {kind : TokenKind}
    (hstart : word.toList.head?.any (StartsWord ·) = true)
    (htail : word.toList.tail.all isWordChar = true) (hkind : TokenKind.ofWord word = kind) :
    IsWord word kind := by
  refine ⟨hkind, ?_⟩
  cases hword : word.toList with
  | nil =>
      rw [hword] at hstart
      cases hstart
  | cons c cs =>
      rw [hword] at hstart htail
      exact ⟨c, cs, rfl, by simpa using hstart, List.all_eq_true.mp htail⟩

theorem isWordChar_of_startsWord {c : Char} (h : StartsWord c) : isWordChar c = true := by
  rcases h with h | rfl
  · exact isWordChar_of_isAlphanum (by simp [Char.isAlphanum, h])
  · rfl

theorem IsWord.not_mem {word : String} {kind : TokenKind} (h : IsWord word kind) {x : Char}
    (hx : isWordChar x = false) : x ∉ word.toList := by
  obtain ⟨c, cs, hword, hc, hcs⟩ := h.chars
  rw [hword, List.mem_cons, not_or]
  constructor
  · rintro rfl
    rw [isWordChar_of_startsWord hc] at hx
    cases hx
  · intro hmem
    rw [hcs x hmem] at hx
    cases hx

theorem scan_word {c : Char} (hc : StartsWord c) (rest : List Char) :
    scan c rest = .ok
      (.ofWord (.ofList (c :: rest.takeWhile isWordChar)), (rest.takeWhile isWordChar).length) := by
  unfold scan
  rw [if_neg (by simp [isLineBlank_of_startsWord hc])]
  -- The characters with a meaning of their own come first, and no word begins with one of them.
  split
  all_goals first | exact absurd hc (by decide) | skip
  rw [if_neg (by simp [isDigit_of_startsWord hc]), if_pos]
  simpa [StartsWord] using hc

theorem scan_digit {c : Char} (hc : c.isDigit = true) (rest : List Char) :
    scan c rest = (numberKind .decimal (c :: rest.takeWhile Char.isAlphanum)
      (c :: rest.takeWhile Char.isAlphanum)).map (·, (rest.takeWhile Char.isAlphanum).length) := by
  have hblank : isLineBlank c = false := by
    rw [Bool.eq_false_iff]
    intro hb
    simp only [isLineBlank, Bool.or_eq_true, beq_iff_eq] at hb
    rcases hb with (rfl | rfl) | rfl <;> cases hc
  unfold scan
  rw [if_neg (by simp [hblank])]
  split
  all_goals first | exact absurd hc (by decide) | skip
  rw [if_pos hc]

theorem scan_blank {c : Char} (hc : isLineBlank c = true) (rest : List Char) :
    scan c rest = .ok (.blanks, (rest.takeWhile isLineBlank).length) := by
  unfold scan
  rw [if_pos hc]

theorem scanNumber_eq (radix : Radix) (sign rest : List Char) :
    scanNumber radix sign rest =
      (numberKind radix (rest.takeWhile Char.isAlphanum)
        (sign ++ rest.takeWhile Char.isAlphanum)).map
          (·, sign.length + (rest.takeWhile Char.isAlphanum).length - 1) := by
  unfold scanNumber
  dsimp only
  cases numberKind radix (rest.takeWhile Char.isAlphanum)
    (sign ++ rest.takeWhile Char.isAlphanum) <;> rfl

/-- A quote opens a literal that goes on to the next quote. -/
theorem scan_quote {inner : List Char} (hi : '"' ∉ inner) (rest : List Char) :
    scan '"' (inner ++ '"' :: rest) = .ok (.text (.ofList inner), inner.length + 1) := by
  have htake : (inner ++ '"' :: rest).takeWhile (· != '"') = inner := by
    refine takeWhile_append_of_ends (fun x hx => ?_) (by simp)
    simp only [bne_iff_ne]
    rintro rfl
    exact hi hx
  unfold scan
  rw [if_neg (by decide)]
  rw [htake, if_pos (by simp)]
  rfl

/-- A quote without another one behind it opens nothing. -/
theorem scan_open_quote {rest : List Char} (h : '"' ∉ rest) :
    scan '"' rest = .error .unterminatedString := by
  have htake : rest.takeWhile (· != '"') = rest := by
    rw [List.takeWhile_eq_self_iff]
    intro x hx
    simp only [bne_iff_ne]
    rintro rfl
    exact h hx
  unfold scan
  rw [if_neg (by decide)]
  rw [htake, if_neg (Nat.lt_irrefl _)]
  rfl

theorem Lexes.endsBlanks {cs : List Char} {kinds : List TokenKind} (h : Lexes cs kinds)
    (hk : ∀ k ∈ kinds.head?, k ≠ .blanks) : EndsBlanks cs := by
  cases h with
  | nil => simp [EndsBlanks]
  | @cons c rest kind more kinds hscan _ =>
      intro x hx
      cases hx
      rw [Bool.eq_false_iff]
      intro hblank
      rw [scan_blank hblank] at hscan
      cases hscan
      exact hk _ rfl rfl

/-- A token is read off the front if it has exactly the characters of its piece. -/
theorem Lexes.piece {c : Char} {cs rest : List Char} {kind : TokenKind} {kinds : List TokenKind}
    (hscan : scan c (cs ++ rest) = .ok (kind, cs.length)) (h : Lexes rest kinds) :
    Lexes (c :: (cs ++ rest)) (kind :: kinds) := by
  refine .cons hscan ?_
  rw [List.drop_left]
  exact h

section
variable {rest : List Char} {kinds : List TokenKind}

/-- A word is read whole, and what it is read as does not depend on what follows. -/
theorem lexes_word {c : Char} {cs : List Char} (hc : StartsWord c)
    (hcs : ∀ x ∈ cs, isWordChar x = true) (hr : EndsWord rest) (h : Lexes rest kinds) :
    Lexes (c :: (cs ++ rest)) (.ofWord (.ofList (c :: cs)) :: kinds) := by
  refine .piece ?_ h
  rw [scan_word hc, takeWhile_append_of_ends hcs hr]

theorem lexes_blank_run {c : Char} {cs : List Char} (hc : isLineBlank c = true)
    (hcs : ∀ x ∈ cs, isLineBlank x = true) (hr : EndsBlanks rest) (h : Lexes rest kinds) :
    Lexes (c :: (cs ++ rest)) (.blanks :: kinds) := by
  refine .piece ?_ h
  rw [scan_blank hc, takeWhile_append_of_ends hcs hr]

theorem lexes_blanks {n : Nat} (hn : n ≠ 0) (hr : EndsBlanks rest) (h : Lexes rest kinds) :
    Lexes (List.replicate n ' ' ++ rest) (.blanks :: kinds) := by
  obtain ⟨n, rfl⟩ := Nat.exists_eq_succ_of_ne_zero hn
  refine lexes_blank_run rfl (fun x hx => ?_) hr h
  rw [(List.mem_replicate.mp hx).2]
  rfl

theorem IsWord.lexes {word : String} {kind : TokenKind} (hw : IsWord word kind) (hr : EndsWord rest)
    (h : Lexes rest kinds) : Lexes (word.toList ++ rest) (kind :: kinds) := by
  obtain ⟨c, cs, hword, hc, hcs⟩ := hw.chars
  have hlex := lexes_word hc hcs hr h
  rw [← hword, String.ofList_toList, hw.kind] at hlex
  rw [hword]
  exact hlex

/-- A hexadecimal number that is not too large. -/
theorem lexes_hex {width n : Nat} (hn : n < 0x100000000) (hr : EndsWord rest) (h : Lexes rest kinds) :
    Lexes ('$' :: ((Numeral.hex width n).toList ++ rest)) (.number .hexadecimal n :: kinds) := by
  refine .piece ?_ h
  have htake : ((Numeral.hex width n).toList ++ rest).takeWhile Char.isAlphanum =
      (Numeral.hex width n).toList :=
    takeWhile_append_of_ends
      (fun x hx => Numeral.isAlphanum_of_isHexDigit (Numeral.isHexDigit_of_mem_hex hx))
      hr.isAlphanum
  have hkind (written : List Char) : numberKind .hexadecimal (Numeral.hex width n).toList written =
      .ok (.number .hexadecimal n) := by
    rw [numberKind, Radix.base, Numeral.value?_hex]
    exact if_pos hn
  show scanNumber .hexadecimal ['$'] _ = _
  rw [scanNumber, htake, hkind, ok_bind, List.length_singleton, Nat.add_sub_cancel_left]
  rfl

theorem lexes_decimal {n : Nat} (hn : n < 0x100000000) (hr : EndsWord rest) (h : Lexes rest kinds) :
    Lexes ((Numeral.decimal n).toList ++ rest) (.number .decimal n :: kinds) := by
  obtain ⟨c, cs, hdigits⟩ : ∃ c cs, (Numeral.decimal n).toList = c :: cs := by
    rw [Numeral.toList_decimal]
    exact List.exists_cons_of_ne_nil (Numeral.digits_ne_nil 10 n)
  have hdigit : ∀ x ∈ c :: cs, x.isDigit = true := by
    rw [← hdigits]
    exact fun x hx => Numeral.isDigit_of_mem_decimal hx
  have htake : (cs ++ rest).takeWhile Char.isAlphanum = cs := by
    refine takeWhile_append_of_ends (fun x hx => ?_) hr.isAlphanum
    simp [Char.isAlphanum, hdigit x (List.mem_cons_of_mem c hx)]
  have hkind : numberKind .decimal (c :: cs) (c :: cs) = .ok (.number .decimal n) := by
    rw [← hdigits, numberKind, Radix.base, Numeral.value?_decimal]
    exact if_pos hn
  rw [hdigits]
  refine .piece ?_ h
  rw [scan_digit (hdigit c List.mem_cons_self), htake, hkind]
  rfl

/-- A text without a quote in it. -/
theorem lexes_string {s : String} (hs : '"' ∉ s.toList) (h : Lexes rest kinds) :
    Lexes ('"' :: (s.toList ++ '"' :: rest)) (.text s :: kinds) := by
  have hscan := scan_quote hs rest
  rw [String.ofList_toList] at hscan
  refine .cons hscan ?_
  rw [← List.drop_drop, List.drop_left]
  exact h

theorem lexes_comma (h : Lexes rest kinds) : Lexes (',' :: rest) (.comma :: kinds) := .cons rfl h

theorem lexes_hash (h : Lexes rest kinds) : Lexes ('#' :: rest) (.hash :: kinds) := .cons rfl h

theorem lexes_plus (h : Lexes rest kinds) : Lexes ('+' :: rest) (.plus :: kinds) := .cons rfl h

theorem lexes_minus (h : Lexes rest kinds) : Lexes ('-' :: rest) (.minus :: kinds) := .cons rfl h

theorem lexes_comment (cs : List Char) : Lexes (';' :: cs) [.comment (.ofList cs)] := by
  refine @Lexes.cons ';' cs _ cs.length _ rfl ?_
  rw [List.drop_length]
  exact .nil

end

/-- A word that can be a label. -/
abbrev IsName (name : String) : Prop := IsWord name (.label name)

/-- What holds of every token of a line: a label is a name, a number takes at most four bytes, and a
text has no quote in it. -/
def TokenKind.Valid : TokenKind → Prop
  | .label name => IsName name
  | .number _ n => n < 0x100000000
  | .text s => '"' ∉ s.toList
  | _ => True

theorem IsWord.valid {word : String} {kind : TokenKind} (h : IsWord word kind) : kind.Valid := by
  have hkind := h.kind
  unfold TokenKind.ofWord at hkind
  split at hkind <;> subst hkind
  · exact trivial
  · exact trivial
  · exact trivial
  · exact h

theorem numberKind_eq_ok_iff {radix : Radix} {digits written : List Char} {kind : TokenKind} :
    numberKind radix digits written = .ok kind ↔
      ∃ n, Numeral.value? radix.base digits = some n ∧ n < 0x100000000 ∧ kind = .number radix n := by
  unfold numberKind
  cases Numeral.value? radix.base digits with
  | none => simp
  | some n =>
      by_cases hn : n < 0x100000000
      · simp only [Nat.pow_eq, hn, if_true, Except.ok.injEq, Option.some.injEq]
        constructor
        · rintro rfl
          exact ⟨n, rfl, hn, rfl⟩
        · rintro ⟨_, rfl, -, rfl⟩
          rfl
      · simp only [Nat.pow_eq, hn, if_false, Option.some.injEq]
        refine iff_of_false nofun ?_
        rintro ⟨_, rfl, hlt, -⟩
        exact hn hlt

/-- The tokens that a rest of a line can begin with, and how many characters each has after its
first. -/
inductive Begins (c : Char) (rest : List Char) : TokenKind → Nat → Prop
  | blanks : Begins c rest .blanks (rest.takeWhile isLineBlank).length
  | comment : Begins c rest (.comment (.ofList rest)) rest.length
  | mark {kind : TokenKind} : kind ∈ [.comma, .hash, .plus, .minus, .colon] → Begins c rest kind 0
  | number {radix : Radix} {sign digits tail : List Char} {n : Nat} :
      c :: rest = sign ++ (digits ++ tail) → n < 0x100000000 →
      Begins c rest (.number radix n) (sign.length + digits.length - 1)
  | text : (rest.takeWhile (· != '"')).length < rest.length →
      Begins c rest (.text (.ofList (rest.takeWhile (· != '"'))))
        ((rest.takeWhile (· != '"')).length + 1)
  | word : StartsWord c →
      Begins c rest (.ofWord (.ofList (c :: rest.takeWhile isWordChar)))
        (rest.takeWhile isWordChar).length

theorem begins_of_scanNumber {radix : Radix} {c : Char} {sign digits rest : List Char}
    {kind : TokenKind} {more : Nat} (h : scanNumber radix sign digits = .ok (kind, more))
    (hline : c :: rest = sign ++ digits) : Begins c rest kind more := by
  obtain ⟨_, hkind, h⟩ := bind_eq_ok_iff.mp h
  cases h
  obtain ⟨n, -, hn, rfl⟩ := numberKind_eq_ok_iff.mp hkind
  rw [← List.takeWhile_append_dropWhile (p := Char.isAlphanum) (l := digits)] at hline
  exact .number hline hn

/-- What `scan` gives, whatever stands on the line. -/
theorem begins_of_scan {c : Char} {rest : List Char} {kind : TokenKind} {more : Nat}
    (h : scan c rest = .ok (kind, more)) : Begins c rest kind more := by
  by_cases hb : isLineBlank c = true
  · rw [scan_blank hb] at h
    cases h
    exact .blanks
  by_cases hc : StartsWord c
  · rw [scan_word hc] at h
    cases h
    exact .word hc
  by_cases hd : c.isDigit = true
  · rw [scan_digit hd] at h
    obtain ⟨_, hkind, h⟩ := map_eq_ok_iff.mp h
    cases h
    obtain ⟨n, -, hn, rfl⟩ := numberKind_eq_ok_iff.mp hkind
    have hline : c :: rest = [] ++
        (c :: rest.takeWhile Char.isAlphanum ++ rest.dropWhile Char.isAlphanum) := by
      rw [List.nil_append, List.cons_append, List.takeWhile_append_dropWhile]
    have hnumber : Begins c rest (.number .decimal n) _ := .number hline hn
    simpa using hnumber
  unfold scan at h
  rw [if_neg hb] at h
  split at h
  case h_1 =>
    cases h
    exact .comment
  case h_7 => exact begins_of_scanNumber h rfl
  case h_8 =>
    split at h
    · exact begins_of_scanNumber h rfl
    · exact begins_of_scanNumber h rfl
    · cases h
  case h_9 => exact begins_of_scanNumber h rfl
  case h_10 =>
    dsimp only at h
    split at h
    · next hlt =>
      cases h
      exact .text hlt
    · cases h
  case h_11 =>
    rw [if_neg hd, if_neg (by simpa [StartsWord] using hc)] at h
    cases h
  all_goals
    cases h
    exact .mark (by simp)

theorem valid_of_scan {c : Char} {rest : List Char} {kind : TokenKind} {more : Nat}
    (h : scan c rest = .ok (kind, more)) : kind.Valid := by
  cases begins_of_scan h with
  | blanks | comment => exact trivial
  | mark hmem =>
      simp only [List.mem_cons, List.not_mem_nil, or_false] at hmem
      rcases hmem with rfl | rfl | rfl | rfl | rfl <;> exact trivial
  | number _ hn => exact hn
  | text =>
      show '"' ∉ (String.ofList (rest.takeWhile (· != '"'))).toList
      rw [String.toList_ofList]
      intro hmem
      have hquote := List.all_eq_true.mp List.all_takeWhile _ hmem
      simp at hquote
  | word hc =>
      exact IsWord.valid
        ⟨rfl, c, _, String.toList_ofList, hc, List.all_eq_true.mp List.all_takeWhile⟩

theorem valid_of_scanOnto {line column : Nat} {found ts : Array Token} {cs : List Char}
    (hf : ∀ t ∈ found, t.kind.Valid) (h : scanOnto line column found cs = .ok ts) :
    ∀ t ∈ ts, t.kind.Valid := by
  fun_induction scanOnto line column found cs with
  | case1 =>
      cases h
      exact hf
  | case2 => cases h
  | case3 column found c rest kind more hscan token ih =>
      refine ih ?_ h
      intro t ht
      rcases Array.mem_push.mp ht with ht | rfl
      · exact hf t ht
      · exact valid_of_scan hscan

theorem valid_of_tokenizeLine {number : Nat} {text : String} {ts : List Token}
    (h : tokenizeLine number text = .ok ts) : ∀ t ∈ ts, t.kind.Valid := by
  obtain ⟨found, hfound, rfl⟩ := map_eq_ok_iff.mp h
  intro t ht
  exact valid_of_scanOnto (by simp) hfound t (Array.mem_toList_iff.mp ht)

end B33.Source
