import B33.Proofs.Source.Folded
import B33.Proofs.Source.Lexer
import B33.Proofs.Text.Case
import B33.Proofs.Text.Lines

/-!
# Lexing without case

Two sources are the same but for case if they are the same once every letter outside string literals
is a capital. Putting a line into capitals folds its tokens and changes nothing else: not where a
token ends, nor which character stops the lexer.
-/
namespace B33.Source

/-- What a character of a source belongs to. -/
inductive Region where
  | code | literal | comment
  deriving DecidableEq, Repr

namespace Region

/-- The region after a character, where `rest` follows. A quote opens a literal only if another one
closes it on the same line, and every line starts anew. -/
def next (region : Region) (c : Char) (rest : List Char) : Region :=
  if c = '\n' then code
  else match region with
  | code =>
    if c = ';' then comment
    else if c = '"' ∧ '"' ∈ rest.takeWhile (· ≠ '\n') then literal
    else code
  | literal => if c = '"' then code else literal
  | comment => comment

/-- The characters with every letter outside literals as a capital. -/
def capitals (region : Region) : List Char → List Char
  | [] => []
  | c :: rest =>
    (if region = literal then c else c.toUpper) :: (region.next c rest).capitals rest

end Region

/-- Whether two sources differ at most in the case of letters outside string literals. -/
def SameButCase (s t : String) : Prop :=
  Region.code.capitals s.toList = Region.code.capitals t.toList

instance (s t : String) : Decidable (SameButCase s t) :=
  inferInstanceAs (Decidable (_ = _))

example : ¬SameButCase "str \"hi\"" "str \"Hi\"" := by decide

namespace Region

theorem map_toUpper_capitals (region : Region) (cs : List Char) :
    (region.capitals cs).map Char.toUpper = cs.map Char.toUpper := by
  induction cs generalizing region with
  | nil => rfl
  | cons c rest ih =>
      rw [capitals, List.map_cons, List.map_cons, ih]
      split_ifs
      · rfl
      · rw [toUpper_toUpper]

/-- What has no quote on its first line can be put behind a text without a change to the text. -/
theorem exists_capitals_append (region : Region) (xs : List Char) {cs : List Char}
    (h : '"' ∉ cs.takeWhile (· ≠ '\n')) :
    ∃ after : Region, region.capitals (xs ++ cs) = region.capitals xs ++ after.capitals cs := by
  induction xs generalizing region with
  | nil => exact ⟨region, rfl⟩
  | cons x xs ih =>
      have hquote : '"' ∈ (xs ++ cs).takeWhile (· ≠ '\n') ↔ '"' ∈ xs.takeWhile (· ≠ '\n') := by
        rw [List.takeWhile_append]
        split_ifs with hall
        · rw [(List.takeWhile_prefix _).eq_of_length hall, List.mem_append, or_iff_left h]
        · rfl
      obtain ⟨after, hafter⟩ := ih (region.next x xs)
      refine ⟨after, ?_⟩
      have hnext : region.next x (xs ++ cs) = region.next x xs := by
        simp only [next, hquote]
      rw [List.cons_append, capitals, hnext, hafter, capitals, List.cons_append]

theorem capitals_append_newline (xs rest : List Char) :
    code.capitals (xs ++ '\n' :: rest) = code.capitals xs ++ '\n' :: code.capitals rest := by
  have hquote : '"' ∉ ('\n' :: rest).takeWhile (· ≠ '\n') := by simp
  obtain ⟨after, h⟩ := code.exists_capitals_append xs hquote
  rw [h, capitals]
  cases after <;> rfl

theorem capitals_append_return (xs : List Char) :
    code.capitals (xs ++ ['\r']) = code.capitals xs ++ ['\r'] := by
  have hquote : '"' ∉ ['\r'].takeWhile (· ≠ '\n') := by simp
  obtain ⟨after, h⟩ := code.exists_capitals_append xs hquote
  rw [h, capitals]
  cases after <;> rfl

theorem mem_capitals_iff {x : Char} (hx : x.isAlpha = false) (region : Region) (cs : List Char) :
    x ∈ region.capitals cs ↔ x ∈ cs := by
  rw [← mem_map_toUpper_iff hx, map_toUpper_capitals, mem_map_toUpper_iff hx]

theorem dropReturn_capitals (line : List Char) :
    dropReturn (code.capitals line) = code.capitals (dropReturn line) := by
  have hlast : (code.capitals line).getLast? = some '\r' ↔ line.getLast? = some '\r' := by
    have hmap {cs : List Char} :
        (cs.map Char.toUpper).getLast? = some '\r' ↔ cs.getLast? = some '\r' := by
      simp only [List.getLast?_map, Option.map_eq_some_iff, toUpper_eq_iff (x := '\r') rfl,
        exists_eq_right]
    rw [← hmap, map_toUpper_capitals, hmap]
  unfold dropReturn
  by_cases h : line.getLast? = some '\r'
  · rw [if_pos h, if_pos (hlast.mpr h)]
    obtain ⟨xs, rfl⟩ := List.getLast?_eq_some_iff.mp h
    rw [capitals_append_return, List.dropLast_concat, List.dropLast_concat]
  · rw [if_neg h, if_neg (hlast.not.mpr h)]

theorem linesOnto_capitals (found : List (List Char)) (cs : List Char) :
    linesOnto (found.map code.capitals) [] (code.capitals cs) =
      (linesOnto found [] cs).map code.capitals := by
  induction cs using lines_induction generalizing found with
  | last xs h =>
      cases xs with
      | nil => simp [linesOnto, capitals]
      | cons x xs =>
          have h' : '\n' ∉ code.capitals (x :: xs) := (mem_capitals_iff rfl _ _).not.mpr h
          rw [linesOnto_of_not_mem h (by simp), linesOnto_of_not_mem h' (by simp [capitals])]
          simp
  | line xs rest h ih =>
      have h' : '\n' ∉ code.capitals xs := (mem_capitals_iff rfl _ _).not.mpr h
      rw [capitals_append_newline, linesOnto_append h, linesOnto_append h', ← ih]
      simp [dropReturn_capitals]

end Region

/-- Sources that are the same but for case have lines that are. -/
theorem SameButCase.splitLines {s t : String} (h : SameButCase s t) :
    List.Forall₂ SameButCase (B33.splitLines s) (B33.splitLines t) := by
  have hlines := congrArg (linesOnto [] []) h
  rw [← List.map_nil (f := Region.code.capitals), Region.linesOnto_capitals,
    Region.linesOnto_capitals] at hlines
  simp only [B33.splitLines, List.forall₂_map_left_iff, List.forall₂_map_right_iff, SameButCase,
    String.toList_ofList]
  rw [← List.forall₂_eq_eq_eq, List.forall₂_map_left_iff, List.forall₂_map_right_iff] at hlines
  exact hlines

theorem TokenKind.ofWord_foldCase (word : String) : ofWord (foldCase word) = (ofWord word).folded := by
  have hupper : (foldCase word).map Char.toUpper = word.map Char.toUpper := foldCase_foldCase word
  unfold ofWord Mnemonic.ofName? Directive.ofName? Register.ofName?
  rw [hupper]
  cases Mnemonic.named.lookup (word.map Char.toUpper) with
  | some m => rfl
  | none =>
      cases Directive.all.find? (·.name == word.map Char.toUpper) with
      | some d => rfl
      | none =>
          cases Register.all.find? (·.name == word.map Char.toUpper) with
          | some r => rfl
          | none => rfl

theorem numberKind_map_toUpper (radix : Radix) (digits written : List Char) :
    numberKind radix (digits.map Char.toUpper) (written.map Char.toUpper) =
      mapBoth Cause.folded TokenKind.folded (numberKind radix digits written) := by
  unfold numberKind
  rw [Numeral.value?_map_toUpper, ← foldCase_ofList]
  cases Numeral.value? radix.base digits with
  | none => rfl
  | some n =>
      dsimp only
      split_ifs
      · rfl
      · rfl

namespace Region

theorem next_of_ne {c : Char} (hcomment : c ≠ ';') (hquote : c ≠ '"') (rest : List Char) :
    code.next c rest = code := by
  simp [next, hcomment, hquote]

section
variable {p : Char → Bool} (hcomment : p ';' = false) (hquote : p '"' = false)
include hcomment hquote

theorem next_of_taken {c : Char} (hc : p c = true) (rest : List Char) : code.next c rest = code := by
  have hne {x : Char} (hx : p x = false) : c ≠ x := by
    rintro rfl
    rw [hx] at hc
    cases hc
  exact next_of_ne (hne hcomment) (hne hquote) rest

/-- A run of characters that opens neither a literal nor a comment is as long in capitals. -/
theorem takeWhile_capitals (hp : ∀ c, p c.toUpper = p c) (cs : List Char) :
    (code.capitals cs).takeWhile p = (cs.takeWhile p).map Char.toUpper := by
  induction cs with
  | nil => rfl
  | cons c rest ih =>
      rw [capitals, if_neg (by decide)]
      by_cases hc : p c = true
      · rw [next_of_taken hcomment hquote hc, List.takeWhile_cons_of_pos ((hp c).trans hc),
          List.takeWhile_cons_of_pos hc, ih, List.map_cons]
      · rw [List.takeWhile_cons_of_neg (by rwa [hp]), List.takeWhile_cons_of_neg hc, List.map_nil]

theorem drop_capitals (cs : List Char) :
    (code.capitals cs).drop (cs.takeWhile p).length =
      code.capitals (cs.drop (cs.takeWhile p).length) := by
  induction cs with
  | nil => rfl
  | cons c rest ih =>
      by_cases hc : p c = true
      · rw [List.takeWhile_cons_of_pos hc, capitals, next_of_taken hcomment hquote hc]
        exact ih
      · rw [List.takeWhile_cons_of_neg hc]
        rfl

end

theorem capitals_comment {cs : List Char} (h : '\n' ∉ cs) :
    comment.capitals cs = cs.map Char.toUpper := by
  induction cs with
  | nil => rfl
  | cons c rest ih =>
      rw [List.mem_cons, not_or] at h
      have hnext : comment.next c rest = comment := if_neg (Ne.symm h.1)
      rw [capitals, if_neg (by decide), hnext, ih h.2, List.map_cons]

/-- A literal stays as it is written up to the quote that closes it. -/
theorem capitals_literal {inner : List Char} (hline : '\n' ∉ inner) (hquote : '"' ∉ inner)
    (rest : List Char) :
    literal.capitals (inner ++ '"' :: rest) = inner ++ '"' :: code.capitals rest := by
  induction inner with
  | nil => rfl
  | cons c inner ih =>
      rw [List.mem_cons, not_or] at hline hquote
      have hnext : literal.next c (inner ++ '"' :: rest) = literal := by
        simp [next, Ne.symm hline.1, Ne.symm hquote.1]
      rw [List.cons_append, capitals, if_pos rfl, hnext, ih hline.2 hquote.2, List.cons_append]

end Region

section
variable {c c' : Char} {rest rest' : List Char}

/-- A token is read alike in two texts if it folds to the same with as many characters, and the
second text goes on with what follows in the first, in capitals. -/
structure ScansAlike (c c' : Char) (rest rest' : List Char) : Prop where
  scan_eq : scan c' rest' = mapBoth Cause.folded (Prod.map TokenKind.folded id) (scan c rest)
  drop_eq : ∀ kind more, scan c rest = .ok (kind, more) →
    rest'.drop more = Region.code.capitals (rest.drop more)

theorem ScansAlike.of_ok {kind : TokenKind} {more : Nat} (h : scan c rest = .ok (kind, more))
    (h' : scan c' rest' = .ok (kind.folded, more))
    (hdrop : rest'.drop more = Region.code.capitals (rest.drop more)) :
    ScansAlike c c' rest rest' := by
  refine ⟨by rw [h, h']; rfl, ?_⟩
  intro kind' more' heq
  rw [h] at heq
  cases heq
  exact hdrop

theorem ScansAlike.of_error {cause : Cause} (h : scan c rest = .error cause)
    (h' : scan c' rest' = .error cause.folded) : ScansAlike c c' rest rest' := by
  refine ⟨by rw [h, h']; rfl, ?_⟩
  intro kind' more' heq
  rw [h] at heq
  cases heq

theorem takeWhile_isAlphanum_capitals (cs : List Char) :
    (Region.code.capitals cs).takeWhile Char.isAlphanum =
      (cs.takeWhile Char.isAlphanum).map Char.toUpper :=
  Region.takeWhile_capitals rfl rfl isAlphanum_toUpper cs

theorem isWordChar_toUpper (c : Char) : isWordChar c.toUpper = isWordChar c := by
  rw [Bool.eq_iff_iff]
  simp only [isWordChar, isAlphanum_toUpper, Bool.or_eq_true, beq_iff_eq,
    toUpper_eq_iff (x := '_') rfl]

theorem isLineBlank_toUpper (c : Char) : isLineBlank c.toUpper = isLineBlank c := by
  rw [Bool.eq_iff_iff]
  simp only [isLineBlank, Bool.or_eq_true, beq_iff_eq, toUpper_eq_iff (x := ' ') rfl,
    toUpper_eq_iff (x := '\t') rfl, toUpper_eq_iff (x := '\r') rfl]

theorem startsWord_toUpper_iff (c : Char) : StartsWord c.toUpper ↔ StartsWord c := by
  rw [StartsWord, isAlpha_toUpper, toUpper_eq_iff rfl, StartsWord]

theorem ne_of_startsWord (h : StartsWord c) : c ≠ ';' ∧ c ≠ '"' := by
  constructor <;> rintro rfl <;> exact absurd h (by decide)

theorem scansAlike_word (h : StartsWord c) (rest : List Char) :
    ScansAlike c c.toUpper rest ((Region.code.next c rest).capitals rest) := by
  have htake := Region.takeWhile_capitals rfl rfl isWordChar_toUpper rest
  rw [Region.next_of_ne (ne_of_startsWord h).1 (ne_of_startsWord h).2]
  refine .of_ok (scan_word h rest) ?_ (Region.drop_capitals rfl rfl rest)
  rw [scan_word ((startsWord_toUpper_iff c).mpr h), htake, List.length_map, ← List.map_cons,
    ← foldCase_ofList, TokenKind.ofWord_foldCase]

theorem scansAlike_blank (h : isLineBlank c = true) (rest : List Char) :
    ScansAlike c c.toUpper rest ((Region.code.next c rest).capitals rest) := by
  have htake := Region.takeWhile_capitals rfl rfl isLineBlank_toUpper rest
  rw [Region.next_of_taken rfl rfl h]
  refine .of_ok (scan_blank h rest) ?_ (Region.drop_capitals rfl rfl rest)
  rw [scan_blank ((isLineBlank_toUpper c).trans h), htake, List.length_map]
  rfl

theorem toUpper_of_not_startsWord (h : ¬StartsWord c) : c.toUpper = c := by
  rw [StartsWord, not_or] at h
  exact (toUpper_eq_iff (Bool.eq_false_iff.mpr h.1) c).mpr rfl

theorem ScansAlike.of_number {radix : Radix} {digits written : List Char} {more : Nat}
    (h : scan c rest = (numberKind radix digits written).map (·, more))
    (h' : scan c' rest' =
      (numberKind radix (digits.map Char.toUpper) (written.map Char.toUpper)).map (·, more))
    (hdrop : rest'.drop more = Region.code.capitals (rest.drop more)) :
    ScansAlike c c' rest rest' := by
  rw [numberKind_map_toUpper] at h'
  cases hkind : numberKind radix digits written with
  | error cause =>
      rw [hkind] at h h'
      exact .of_error h h'
  | ok kind =>
      rw [hkind] at h h'
      exact .of_ok h h' hdrop

theorem scansAlike_digit (h : c.isDigit = true) (rest : List Char) :
    ScansAlike c c.toUpper rest ((Region.code.next c rest).capitals rest) := by
  have hword : ¬StartsWord c := by
    intro hc
    rw [isDigit_of_startsWord hc] at h
    cases h
  have halnum : c.isAlphanum = true := by simp [Char.isAlphanum, h]
  have hupper := toUpper_of_not_startsWord hword
  have htake := takeWhile_isAlphanum_capitals rest
  rw [Region.next_of_taken rfl rfl halnum]
  refine .of_number (scan_digit h rest) ?_ (Region.drop_capitals rfl rfl rest)
  rw [List.map_cons, hupper, scan_digit h, htake, List.length_map]

/-- A number behind a sign that has `n` characters after its first. -/
theorem ScansAlike.of_scanNumber (n : Nat) (sign : List Char) {radix : Radix}
    {sign' digits : List Char}
    (hsign : sign' = sign.map Char.toUpper) (hlength : sign.length = 1 + n)
    (h : scan c rest = scanNumber radix sign digits)
    (h' : scan c' rest' = scanNumber radix sign' (Region.code.capitals digits))
    (hdrop : rest.drop n = digits) (hdrop' : rest'.drop n = Region.code.capitals digits) :
    ScansAlike c c' rest rest' := by
  have htake := takeWhile_isAlphanum_capitals digits
  have hmore (k : Nat) : 1 + n + k - 1 = n + k := by omega
  rw [scanNumber_eq, hlength, hmore] at h
  rw [scanNumber_eq, hsign, htake, List.length_map, List.length_map, hlength, hmore,
    ← List.map_append] at h'
  refine .of_number h h' ?_
  rw [← List.drop_drop, ← List.drop_drop, hdrop, hdrop']
  exact Region.drop_capitals rfl rfl digits

theorem scan_ampersand_of_ne (hH : c ≠ 'H') (hh : c ≠ 'h') (rest : List Char) :
    scan '&' (c :: rest) = .error (.invalidNumber "&") := by
  have hblank : isLineBlank '&' = false := rfl
  simp [scan, hblank, hH, hh]

theorem scansAlike_ampersand (rest : List Char) :
    ScansAlike '&' '&' rest (Region.code.capitals rest) := by
  have hfolded : (Cause.invalidNumber "&").folded = .invalidNumber "&" :=
    congrArg Cause.invalidNumber (foldCase_ofList ['&'])
  cases rest with
  | nil => exact .of_error rfl (congrArg Except.error hfolded.symm)
  | cons d digits =>
      by_cases hH : d = 'H'
      · subst hH
        exact .of_scanNumber 1 ['&', 'H'] rfl rfl rfl rfl rfl rfl
      by_cases hh : d = 'h'
      · subst hh
        exact .of_scanNumber 1 ['&', 'h'] rfl rfl rfl rfl rfl rfl
      -- No other letter turns into the sign of a hexadecimal number.
      have hupper : d.toUpper ≠ 'H' ∧ d.toUpper ≠ 'h' :=
        toUpper_induction (P := fun c d => c ≠ 'H' → c ≠ 'h' → d ≠ 'H' ∧ d ≠ 'h')
          (fun _ _ => And.intro) (by decide) d hH hh
      refine .of_error (scan_ampersand_of_ne hH hh digits) ?_
      rw [hfolded]
      exact scan_ampersand_of_ne hupper.1 hupper.2 _

theorem scansAlike_quote {rest : List Char} (h : '\n' ∉ rest) :
    ScansAlike '"' '"' rest ((Region.code.next '"' rest).capitals rest) := by
  have hline : rest.takeWhile (· ≠ '\n') = rest := by
    rw [List.takeWhile_eq_self_iff]
    intro x hx
    simp only [decide_eq_true_eq]
    rintro rfl
    exact h hx
  have hnext : Region.code.next '"' rest = if '"' ∈ rest then .literal else .code := by
    unfold Region.next
    simp only [hline]
    simp
  rw [hnext]
  split_ifs with hquote
  · obtain ⟨inner, after, rfl, hinner⟩ := List.eq_append_cons_of_mem hquote
    rw [List.mem_append, not_or] at h
    rw [Region.capitals_literal h.1 hinner]
    refine .of_ok (scan_quote hinner after) (scan_quote hinner _) ?_
    rw [← List.drop_drop, ← List.drop_drop, List.drop_left, List.drop_left]
    rfl
  · exact .of_error (scan_open_quote hquote)
      (scan_open_quote ((Region.mem_capitals_iff rfl _ _).not.mpr hquote))

theorem scansAlike_semicolon (h : '\n' ∉ rest) :
    ScansAlike ';' ';' rest ((Region.code.next ';' rest).capitals rest) := by
  have hcapitals : (Region.code.next ';' rest).capitals rest = rest.map Char.toUpper :=
    Region.capitals_comment h
  rw [hcapitals]
  have hscan : scan ';' rest = .ok (.comment (.ofList rest), rest.length) := rfl
  refine .of_ok hscan ?_ ?_
  · rw [TokenKind.folded, foldCase_ofList, ← List.length_map Char.toUpper]
    rfl
  · rw [List.drop_length, ← List.length_map Char.toUpper, List.drop_length]
    rfl

/-- The characters that are tokens, or begin one, by themselves. -/
def signs : List Char := [';', ',', '#', '+', '-', ':', '$', '&', '%', '"']

theorem scan_other (hword : ¬StartsWord c) (hblank : isLineBlank c = false)
    (hdigit : c.isDigit = false) (hsign : c ∉ signs) (rest : List Char) :
    scan c rest = .error (.unexpectedCharacter c) := by
  unfold scan
  rw [if_neg (by simp [hblank])]
  split
  all_goals first | exact absurd hsign (by decide) | skip
  rw [if_neg (by simp [hdigit]), if_neg (by simpa [StartsWord] using hword)]

/-- The next token of a line, and of the line in capitals. -/
theorem scansAlike (h : '\n' ∉ rest) (c : Char) :
    ScansAlike c c.toUpper rest ((Region.code.next c rest).capitals rest) := by
  -- Only a word begins with a letter, so past the words the first character is its own capital.
  by_cases hword : StartsWord c
  · exact scansAlike_word hword rest
  by_cases hblank : isLineBlank c = true
  · exact scansAlike_blank hblank rest
  by_cases hdigit : c.isDigit = true
  · exact scansAlike_digit hdigit rest
  rw [toUpper_of_not_startsWord hword]
  by_cases hsign : c ∈ signs
  · simp only [signs, List.mem_cons, List.not_mem_nil, or_false] at hsign
    rcases hsign with rfl | rfl | rfl | rfl | rfl | rfl | rfl | rfl | rfl | rfl
    · exact scansAlike_semicolon h
    · exact .of_ok rfl rfl rfl
    · exact .of_ok rfl rfl rfl
    · exact .of_ok rfl rfl rfl
    · exact .of_ok rfl rfl rfl
    · exact .of_ok rfl rfl rfl
    · exact .of_scanNumber 0 ['$'] rfl rfl rfl rfl rfl rfl
    · exact scansAlike_ampersand rest
    · exact .of_scanNumber 0 ['%'] rfl rfl rfl rfl rfl rfl
    · exact scansAlike_quote h
  · rw [Bool.not_eq_true] at hblank hdigit
    exact .of_error (scan_other hword hblank hdigit hsign _)
      (scan_other hword hblank hdigit hsign _)

end

theorem foldCase_ofList_congr {xs ys : List Char} (h : xs.map Char.toUpper = ys.map Char.toUpper) :
    foldCase (.ofList xs) = foldCase (.ofList ys) := by
  rw [foldCase_ofList, foldCase_ofList, h]

/-- The tokens of a line in capitals are those of the line, but for case. -/
theorem scanOnto_capitals {line column : Nat} {found found' : Array Token} {cs : List Char}
    (h : '\n' ∉ cs) (hfound : found'.map Token.folded = found.map Token.folded) :
    mapBoth SourceError.folded (Array.map Token.folded)
        (scanOnto line column found' (Region.code.capitals cs)) =
      mapBoth SourceError.folded (Array.map Token.folded) (scanOnto line column found cs) := by
  -- What was found before differs in its words too, so it is part of what the induction is over.
  revert found'
  fun_induction scanOnto line column found cs with
  | case1 column found =>
      intro found' hfound
      rw [Region.capitals, scanOnto]
      exact congrArg Except.ok hfound
  | case2 column found c rest cause hscan =>
      intro found' hfound
      rw [List.mem_cons, not_or] at h
      have hscan' := (scansAlike h.2 c).scan_eq
      rw [hscan] at hscan'
      rw [Region.capitals, if_neg (by decide), scanOnto, hscan']
      simp [mapBoth, SourceError.folded]
  | case3 column found c rest kind more hscan token ih =>
      intro found' hfound
      rw [List.mem_cons, not_or] at h
      have halike := scansAlike h.2 c
      have hscan' := halike.scan_eq
      rw [hscan] at hscan'
      rw [Region.capitals, if_neg (by decide), scanOnto, hscan']
      dsimp only [mapBoth, Prod.map, id_eq]
      rw [halike.drop_eq kind more hscan]
      refine ih (fun hmem => h.2 (List.mem_of_mem_drop hmem)) ?_
      have htext : foldCase (.ofList (c.toUpper ::
          ((Region.code.next c rest).capitals rest).take more)) =
            foldCase (.ofList (c :: rest.take more)) := by
        refine foldCase_ofList_congr ?_
        simp only [List.map_cons, List.map_take, toUpper_toUpper, Region.map_toUpper_capitals]
      rw [Array.map_push, Array.map_push, hfound]
      simp only [token, Token.folded, TokenKind.folded_folded, htext]

theorem tokenizeLine_capitals {text : String} (h : '\n' ∉ text.toList) (number : Nat) :
    mapBoth SourceError.folded Cursor.folded
        (tokenizeLine number (.ofList (Region.code.capitals text.toList))) =
      mapBoth SourceError.folded Cursor.folded (tokenizeLine number text) := by
  have hlist (found : Array Token) :
      (found.map Token.folded).toList = Cursor.folded found.toList := Array.toList_map
  unfold tokenizeLine
  rw [String.toList_ofList, ← map_mapBoth hlist, ← map_mapBoth hlist, scanOnto_capitals h rfl]

namespace SameButCase
variable {s t : String} (h : SameButCase s t)
include h

theorem foldCase_eq : foldCase s = foldCase t := by
  have hmap := congrArg (List.map Char.toUpper) h
  rw [Region.map_toUpper_capitals, Region.map_toUpper_capitals] at hmap
  rw [← s.ofList_toList, ← t.ofList_toList, foldCase_ofList, foldCase_ofList, hmap]

/-- Lines that are the same but for case have tokens that are, or none for like causes. -/
theorem tokenizeLine (hs : '\n' ∉ s.toList) (ht : '\n' ∉ t.toList) (number : Nat) :
    mapBoth SourceError.folded Cursor.folded (Source.tokenizeLine number s) =
      mapBoth SourceError.folded Cursor.folded (Source.tokenizeLine number t) := by
  rw [← tokenizeLine_capitals hs, ← tokenizeLine_capitals ht, h]

theorem parse (hs : '\n' ∉ s.toList) (ht : '\n' ∉ t.toList) (number : Nat) :
    mapBoth SourceError.folded Line.folded (Line.parse number s) =
      mapBoth SourceError.folded Line.folded (Line.parse number t) := by
  unfold Line.parse
  rcases mapBoth_eq_cases (h.tokenizeLine hs ht number) with
    ⟨xs, ys, hxs, hys, htokens⟩ | ⟨e, e', hxs, hys, herror⟩
  · rw [hxs, hys, ok_bind, ok_bind]
    rcases mapBoth_eq_cases (Line.parseParts_congr htokens) with
      ⟨a, b, ha, hb, hab⟩ | ⟨c, d, hc, hd, hcause⟩
    · obtain ⟨⟨label, statement, comment⟩, rest⟩ := a
      obtain ⟨⟨label', statement', comment'⟩, rest'⟩ := b
      simp only [Prod.map, Prod.mk.injEq] at hab
      obtain ⟨⟨hlabel, hstatement, hcomment⟩, -⟩ := hab
      simp only [StateT.run, ha, hb]
      refine congrArg Except.ok ?_
      simp only [Line.folded, hlabel, hstatement, hcomment, h.foldCase_eq]
    · simp only [StateT.run, hc, hd]
      refine congrArg Except.error ?_
      simp only [SourceError.folded, hcause]
  · rw [hxs, hys]
    exact congrArg Except.error herror

end SameButCase

end B33.Source
