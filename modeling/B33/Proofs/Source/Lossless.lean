import B33.Proofs.Source.Lexer

/-!
# Tokens and the text they come from

A place in a line is reached through the tokens before it, which are made of just the characters
before it. From every place the lexer goes on to another one behind it, or it is at the end of the
line, or it refuses the line there. So no character of a line that is accepted is lost between its
tokens or belongs to two of them, and the same holds of a source, where each line's end is a token.
-/
namespace B33.Source

/-- The texts of tokens, one behind the other. -/
def joinText (ts : List Token) : String := String.join (ts.map (·.text))

@[simp] theorem joinText_nil : joinText [] = "" := rfl

@[simp] theorem joinText_append (ts us : List Token) :
    joinText (ts ++ us) = joinText ts ++ joinText us := by
  simp [joinText]

@[simp] theorem joinText_cons (t : Token) (ts : List Token) :
    joinText (t :: ts) = t.text ++ joinText ts := String.join_cons

/-- A token takes no more characters than there are. -/
theorem le_length_of_scan {c : Char} {rest : List Char} {kind : TokenKind} {more : Nat}
    (h : scan c rest = .ok (kind, more)) : more ≤ rest.length := by
  cases begins_of_scan h with
  | blanks | word => exact (List.takeWhile_prefix _).length_le
  | comment => exact Nat.le_refl _
  | mark => exact Nat.zero_le _
  | number hline =>
      have hlength := congrArg List.length hline
      simp only [List.length_cons, List.length_append] at hlength
      omega
  | text hlt => exact hlt

/-- No token of a line is an end of a line or of the source. -/
theorem ne_end_of_scan {c : Char} {rest : List Char} {kind : TokenKind} {more : Nat}
    (h : scan c rest = .ok (kind, more)) : kind ≠ .newline ∧ kind ≠ .endOfSource := by
  cases begins_of_scan h with
  | blanks | comment | number | text => exact ⟨nofun, nofun⟩
  | mark hmem =>
      constructor
      · rintro rfl
        simp at hmem
      · rintro rfl
        simp at hmem
  | word =>
      unfold TokenKind.ofWord
      split <;> exact ⟨nofun, nofun⟩

/-- The tokens before a place in a line, and the rest of the line from there. A token's column is
the number of characters before it. -/
inductive Reaches (number : Nat) (text : String) : List Token → List Char → Prop
  | start : Reaches number text [] text.toList
  | token {before : List Token} {c : Char} {rest : List Char} {kind : TokenKind} {more : Nat} :
      Reaches number text before (c :: rest) → scan c rest = .ok (kind, more) →
      Reaches number text
        (before ++ [⟨kind, .ofList (c :: rest.take more), number, (joinText before).length⟩])
        (rest.drop more)

namespace Reaches
variable {number : Nat} {text : String} {before : List Token} {rest : List Char}

theorem toList_eq (h : Reaches number text before rest) :
    text.toList = (joinText before).toList ++ rest := by
  induction h with
  | start => simp
  | @token before c rest kind more _ _ ih =>
      rw [ih, joinText_append, String.toList_append, List.append_assoc]
      simp [String.toList_ofList]

/-- What holds of each token that is scanned holds of the tokens before a place. -/
theorem forall_mem {P : Token → Prop} (h : Reaches number text before rest)
    (hscan : ∀ {c rest kind more} column, scan c rest = .ok (kind, more) →
      P ⟨kind, .ofList (c :: rest.take more), number, column⟩) : ∀ t ∈ before, P t := by
  induction h with
  | start => exact fun t ht => absurd ht List.not_mem_nil
  | token _ htoken ih =>
      exact List.forall_mem_append.mpr ⟨ih, List.forall_mem_singleton.mpr (hscan _ htoken)⟩

theorem text_ne (h : Reaches number text before rest) : ∀ t ∈ before, t.text ≠ "" := by
  refine h.forall_mem fun _ _ hempty => ?_
  have hchars := congrArg String.toList hempty
  rw [String.toList_ofList] at hchars
  cases hchars

theorem length_le (h : Reaches number text before rest) :
    before.length ≤ (joinText before).length := by
  induction h with
  | start => exact Nat.zero_le _
  | token _ _ ih =>
      simp only [List.length_append, List.length_cons, List.length_nil, joinText_append,
        joinText_cons, String.length_append, String.length_ofList]
      omega

theorem column_eq (h : Reaches number text before rest) (k : Nat) (hk : k < before.length) :
    before[k].line = number ∧ before[k].column = (joinText (before.take k)).length := by
  induction h with
  | start => cases hk
  | @token before c rest kind more _ _ ih =>
      rw [List.length_append, List.length_singleton] at hk
      by_cases hlt : k < before.length
      · rw [List.getElem_append_left hlt, List.take_append_of_le_length (Nat.le_of_lt hlt)]
        exact ih hlt
      · have heq : k = before.length := by omega
        subst heq
        simp

/-- At a place that is reached, the lexer has found the tokens before it. -/
theorem scanOnto_eq (h : Reaches number text before rest) :
    scanOnto number 0 #[] text.toList =
      scanOnto number (joinText before).length before.toArray rest := by
  induction h with
  | start => rfl
  | @token before c rest kind more _ hscan ih =>
      have hmore := le_length_of_scan hscan
      have hcolumn : (joinText before).length + 1 + more =
          (joinText before ++ .ofList (c :: rest.take more)).length := by
        rw [String.length_append, String.length_ofList, List.length_cons, List.length_take,
          Nat.min_eq_left hmore]
        omega
      rw [ih, scanOnto, hscan]
      dsimp only
      rw [hcolumn, List.push_toArray, joinText_append, joinText_cons, joinText_nil,
        String.append_empty]

theorem tokenizeLine_eq_ok (h : Reaches number text before []) :
    tokenizeLine number text = .ok before := by
  rw [tokenizeLine, h.scanOnto_eq, scanOnto]
  rfl

theorem tokenizeLine_eq_error {c : Char} {cause : Cause}
    (h : Reaches number text before (c :: rest)) (hscan : scan c rest = .error cause) :
    tokenizeLine number text = .error ⟨number, cause⟩ := by
  rw [tokenizeLine, h.scanOnto_eq, scanOnto, hscan]
  rfl

/-- From every place the lexer comes to the end of the line or to a place where it refuses it. -/
theorem exists_end (h : Reaches number text before rest) :
    (∃ after, Reaches number text (before ++ after) []) ∨
      ∃ after c left cause, Reaches number text (before ++ after) (c :: left) ∧
        scan c left = .error cause := by
  -- A token takes at least one character, so what is left of the line gets shorter.
  induction hn : rest.length using Nat.strongRecOn generalizing before rest with
  | ind n ih =>
      cases rest with
      | nil => exact .inl ⟨[], by rwa [List.append_nil]⟩
      | cons c left =>
          cases hscan : scan c left with
          | error cause => exact .inr ⟨[], c, left, cause, by rwa [List.append_nil], hscan⟩
          | ok found =>
              obtain ⟨kind, more⟩ := found
              have hshorter : (left.drop more).length < n := by
                rw [← hn, List.length_drop, List.length_cons]
                omega
              rcases ih _ hshorter (h.token hscan) rfl with ⟨after, hend⟩ | ⟨after, hrefused⟩
              · rw [List.append_assoc] at hend
                exact .inl ⟨_, hend⟩
              · rw [List.append_assoc] at hrefused
                exact .inr ⟨_, hrefused⟩

/-- The tokens before a place are the first ones of the line. -/
theorem exists_append (h : Reaches number text before rest) {ts : List Token}
    (hts : tokenizeLine number text = .ok ts) :
    ∃ after, ts = before ++ after ∧ Reaches number text ts [] := by
  rcases h.exists_end with ⟨after, hend⟩ | ⟨after, c, left, cause, hplace, hscan⟩
  · have heq := hend.tokenizeLine_eq_ok
    rw [hts, Except.ok.injEq] at heq
    exact ⟨after, heq, heq ▸ hend⟩
  · rw [hplace.tokenizeLine_eq_error hscan] at hts
    cases hts

end Reaches

theorem tokenizeLine_eq_ok_iff {number : Nat} {text : String} {ts : List Token} :
    tokenizeLine number text = .ok ts ↔ Reaches number text ts [] := by
  constructor
  · intro h
    obtain ⟨-, -, hend⟩ := Reaches.start.exists_append h
    exact hend
  · exact Reaches.tokenizeLine_eq_ok

theorem kind_ne_of_tokenizeLine {number : Nat} {text : String} {ts : List Token}
    (h : tokenizeLine number text = .ok ts) :
    ∀ t ∈ ts, t.kind ≠ .newline ∧ t.kind ≠ .endOfSource :=
  (tokenizeLine_eq_ok_iff.mp h).forall_mem fun _ hscan => ne_end_of_scan hscan

/-- What the tokens of a line keep of it. -/
structure KeepsLine (number : Nat) (text : String) (ts : List Token) : Prop where
  text_ne : ∀ t ∈ ts, t.text ≠ ""
  joinText_eq : joinText ts = text
  column_eq : ∀ (k : Nat) (hk : k < ts.length),
    ts[k].line = number ∧ ts[k].column = (joinText (ts.take k)).length

theorem keepsLine_of_tokenizeLine {number : Nat} {text : String} {ts : List Token}
    (h : tokenizeLine number text = .ok ts) : KeepsLine number text ts := by
  have hend := tokenizeLine_eq_ok_iff.mp h
  refine ⟨hend.text_ne, ?_, hend.column_eq⟩
  have hchars := hend.toList_eq
  rw [List.append_nil] at hchars
  exact String.toList_inj.mp hchars.symm

/-- The tokens of lines from a number on. Behind the tokens of a line stands its end, and behind
those of the last one the end of the source. -/
inductive Streams : Nat → List String → List Token → Prop
  | none {number : Nat} : Streams number [] [⟨.endOfSource, "", 1, 0⟩]
  | last {number : Nat} {text : String} {ts : List Token} : tokenizeLine number text = .ok ts →
      Streams number [text] (ts ++ [⟨.endOfSource, "", number, text.length⟩])
  | line {number : Nat} {text next : String} {texts : List String} {ts us : List Token} :
      tokenizeLine number text = .ok ts → Streams (number + 1) (next :: texts) us →
      Streams number (text :: next :: texts) (ts ++ ⟨.newline, "\n", number, text.length⟩ :: us)

/-- The ends of lines from a number on. The last line has none. -/
def lineEnds (number : Nat) (texts : List String) : List Token :=
  texts.dropLast.mapIdx fun i text => ⟨.newline, "\n", number + i, text.length⟩

theorem lineEnds_cons (number : Nat) (text next : String) (texts : List String) :
    lineEnds number (text :: next :: texts) =
      ⟨.newline, "\n", number, text.length⟩ :: lineEnds (number + 1) (next :: texts) := by
  simp only [lineEnds, List.dropLast_cons_cons, List.mapIdx_cons, Nat.add_zero, Nat.add_assoc,
    Nat.add_comm 1]

theorem streams_of_tokenizeOnto {number : Nat} {found all : Array Token} {texts : List String}
    (h : tokenizeOnto number found texts = .ok all) :
    ∃ ts, Streams number texts ts ∧ all.toList = found.toList ++ ts := by
  have htokens {number : Nat} {text : String} {tokens : Array Token}
      (hscan : scanOnto number 0 #[] text.toList = .ok tokens) :
      tokenizeLine number text = .ok tokens.toList := by
    rw [tokenizeLine, hscan]
    rfl
  fun_induction tokenizeOnto number found texts with
  | case1 =>
      cases h
      exact ⟨_, .none, by simp⟩
  | case2 number found text =>
      obtain ⟨tokens, hscan, h⟩ := bind_eq_ok_iff.mp h
      cases h
      exact ⟨_, .last (htokens hscan), by simp⟩
  | case3 number found text texts hne ih =>
      obtain ⟨tokens, hscan, h⟩ := bind_eq_ok_iff.mp h
      obtain ⟨us, hus, hall⟩ := ih tokens h
      cases texts with
      | nil => exact (hne rfl).elim
      | cons next texts => exact ⟨_, .line (htokens hscan) hus, by simp [hall]⟩

namespace Streams
variable {number : Nat} {texts : List String} {ts : List Token}

theorem joinText_eq (h : Streams number texts ts) : joinText ts = "\n".intercalate texts := by
  induction h with
  | none => rfl
  | last hts => simp [(keepsLine_of_tokenizeLine hts).joinText_eq]
  | line hts _ ih =>
      simp [(keepsLine_of_tokenizeLine hts).joinText_eq, ih, String.append_assoc]

theorem filter_newline (h : Streams number texts ts) :
    ts.filter (·.kind = .newline) = lineEnds number texts := by
  have hnone {number : Nat} {text : String} {ts : List Token}
      (hts : tokenizeLine number text = .ok ts) : ts.filter (·.kind = .newline) = [] := by
    rw [List.filter_eq_nil_iff]
    intro t ht
    simpa using (kind_ne_of_tokenizeLine hts t ht).1
  induction h with
  | none => rfl
  | last hts =>
      rw [List.filter_append, hnone hts]
      rfl
  | line hts _ ih =>
      rw [List.filter_append, hnone hts, List.nil_append, lineEnds_cons, ← ih]
      rfl

theorem ends (h : Streams number texts ts) :
    ∃ front last, ts = front ++ [last] ∧ last.kind = .endOfSource ∧
      ∀ t ∈ front, t.kind ≠ .endOfSource := by
  induction h with
  | none => exact ⟨[], _, rfl, rfl, by simp⟩
  | last hts => exact ⟨_, _, rfl, rfl, fun t ht => (kind_ne_of_tokenizeLine hts t ht).2⟩
  | @line number text _ _ ts us hts _ ih =>
      obtain ⟨front, last, rfl, hlast, hfront⟩ := ih
      refine ⟨ts ++ ⟨.newline, "\n", number, text.length⟩ :: front, last, by simp, hlast, ?_⟩
      intro t ht
      rcases List.mem_append.mp ht with ht | ht
      · exact (kind_ne_of_tokenizeLine hts t ht).2
      · rcases List.mem_cons.mp ht with rfl | ht
        · exact nofun
        · exact hfront t ht

end Streams

/-- What the tokens of a source keep of it. -/
structure KeepsSource (source : String) (ts : List Token) : Prop where
  streams : Streams 1 (splitLines source) ts
  joinText_eq : joinText ts = "\n".intercalate (splitLines source)
  newlines : ts.filter (·.kind = .newline) = lineEnds 1 (splitLines source)
  ends : ∃ front last, ts = front ++ [last] ∧ last.kind = .endOfSource ∧
    ∀ t ∈ front, t.kind ≠ .endOfSource

/-- Lexing is lossless. A line and a source are kept in their tokens, every token takes at least one
character of its line, and on every line the lexer comes to the end or to a place where it stops. -/
theorem tokens_keep_text :
    (∀ number text ts, tokenizeLine number text = .ok ts → KeepsLine number text ts) ∧
    (∀ c rest kind more, scan c rest = .ok (kind, more) →
      (rest.drop more).length + (1 + more) = (c :: rest).length) ∧
    (∀ number text,
      (∃ ts, tokenizeLine number text = .ok ts ∧ ts.length ≤ text.length) ∨
        ∃ before c rest cause, Reaches number text before (c :: rest) ∧
          before.length < text.length ∧ scan c rest = .error cause ∧
          tokenizeLine number text = .error ⟨number, cause⟩) ∧
    (∀ source ts, tokenize source = .ok ts → KeepsSource source ts) := by
  have hlength {number : Nat} {text : String} {before : List Token} {rest : List Char}
      (h : Reaches number text before rest) : before.length + rest.length ≤ text.length := by
    have htotal := congrArg List.length h.toList_eq
    rw [List.length_append, String.length_toList, String.length_toList] at htotal
    have := h.length_le
    omega
  refine ⟨fun _ _ _ => keepsLine_of_tokenizeLine, ?_, ?_, ?_⟩
  · intro c rest kind more hscan
    have := le_length_of_scan hscan
    rw [List.length_drop, List.length_cons]
    omega
  · intro number text
    have hstart : Reaches number text [] text.toList := .start
    rcases hstart.exists_end with ⟨ts, hend⟩ | ⟨before, c, rest, cause, hplace, hscan⟩
    · exact .inl ⟨_, hend.tokenizeLine_eq_ok, hlength hend⟩
    · refine .inr ⟨_, c, rest, cause, hplace, ?_, hscan, hplace.tokenizeLine_eq_error hscan⟩
      have := hlength hplace
      rw [List.length_cons] at this
      omega
  · intro source ts h
    obtain ⟨all, hall, rfl⟩ := map_eq_ok_iff.mp h
    obtain ⟨us, hus, heq⟩ := streams_of_tokenizeOnto hall
    rw [List.nil_append] at heq
    subst heq
    exact ⟨hus, hus.joinText_eq, hus.filter_newline, hus.ends⟩

/-- Two lines with characters of several bytes, the first one ended by a carriage return and a line
feed. -/
theorem keeps_text_of_wide_characters :
    (∃ ts, tokenizeLine 7 "Go STR \"π;\" ; é" = .ok ts ∧ KeepsLine 7 "Go STR \"π;\" ; é" ts) ∧
      (scan '&' ['h', '0', 'F', ','] = .ok (.number .hexadecimal 15, 3) ∧
        [','].length + (1 + 3) = ['&', 'h', '0', 'F', ','].length) ∧
      ∃ ts, tokenize "Go STR \"π;\" ; é\r\n HLT" = .ok ts ∧
        KeepsSource "Go STR \"π;\" ; é\r\n HLT" ts := by
  obtain ⟨ts, hline⟩ : ∃ ts, tokenizeLine 7 "Go STR \"π;\" ; é" = .ok ts :=
    exists_of_isOk (by decide +kernel)
  obtain ⟨us, hsource⟩ : ∃ us, tokenize "Go STR \"π;\" ; é\r\n HLT" = .ok us :=
    exists_of_isOk (by decide +kernel)
  have hscan : scan '&' ['h', '0', 'F', ','] = .ok (.number .hexadecimal 15, 3) := by
    decide +kernel
  exact ⟨⟨ts, hline, tokens_keep_text.1 _ _ _ hline⟩,
    ⟨hscan, tokens_keep_text.2.1 _ _ _ _ hscan⟩, ⟨us, hsource, tokens_keep_text.2.2.2 _ _ hsource⟩⟩

end B33.Source
