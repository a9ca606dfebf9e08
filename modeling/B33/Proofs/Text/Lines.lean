import B33.Text.Lines

/-!
# Texts made of lines

A text in which every line is ended is split into those lines again, and no line that a text is split
into has a line feed in it.
-/
namespace B33

/-- Whether a line can be told from the lines around it. -/
def IsLine (s : String) : Prop := '\n' ∉ s.toList ∧ s.toList.getLast? ≠ some '\r'

theorem isLine_of_not_mem {s : String} (h : '\n' ∉ s.toList) (hr : '\r' ∉ s.toList) : IsLine s :=
  ⟨h, fun hlast => hr (List.mem_of_getLast? hlast)⟩

theorem dropReturn_of_isLine {s : String} (h : IsLine s) : dropReturn s.toList = s.toList :=
  if_neg h.2

/-- A text is one line that is not ended, or a line that is ended and a text behind it. -/
theorem lines_induction {P : List Char → Prop} (last : ∀ xs, '\n' ∉ xs → P xs)
    (line : ∀ xs rest, '\n' ∉ xs → P rest → P (xs ++ '\n' :: rest)) (cs : List Char) : P cs := by
  -- The characters of the current line are put aside until its end is found.
  have hall (xs : List Char) (hxs : '\n' ∉ xs) : P (xs ++ cs) := by
    induction cs generalizing xs with
    | nil =>
        rw [List.append_nil]
        exact last xs hxs
    | cons c cs ih =>
        by_cases hc : c = '\n'
        · subst hc
          exact line xs cs hxs (ih [] List.not_mem_nil)
        · have hnext := ih (xs ++ [c]) (by simp [hxs, Ne.symm hc])
          rwa [List.append_assoc, List.singleton_append] at hnext
  exact hall [] List.not_mem_nil

theorem linesOnto_append {found : List (List Char)} {line xs rest : List Char} (h : '\n' ∉ xs) :
    linesOnto found line (xs ++ '\n' :: rest) =
      linesOnto (dropReturn (line.reverse ++ xs) :: found) [] rest := by
  induction xs generalizing line with
  | nil => simp [linesOnto]
  | cons x xs ih =>
      rw [List.mem_cons, not_or] at h
      rw [List.cons_append, linesOnto, if_neg (Ne.symm h.1), ih h.2, List.reverse_cons,
        List.append_assoc, List.singleton_append]

theorem linesOnto_lines {found : List (List Char)} {ls : List String} (h : ∀ l ∈ ls, IsLine l) :
    linesOnto found [] (ls.flatMap fun l => l.toList ++ ['\n']) =
      found.reverse ++ ls.map String.toList := by
  induction ls generalizing found with
  | nil => simp [linesOnto]
  | cons l ls ih =>
      have hl := h l List.mem_cons_self
      rw [List.flatMap_cons, List.append_assoc, List.singleton_append, linesOnto_append hl.1,
        List.reverse_nil, List.nil_append, dropReturn_of_isLine hl,
        ih fun x hx => h x (List.mem_cons_of_mem _ hx), List.reverse_cons, List.append_assoc,
        List.singleton_append, List.map_cons]

theorem splitLines_eq {s : String} {ls : List String} (h : ∀ l ∈ ls, IsLine l)
    (hs : s.toList = ls.flatMap fun l => l.toList ++ ['\n']) : splitLines s = ls := by
  rw [splitLines, hs, linesOnto_lines h, List.reverse_nil, List.nil_append, List.map_map]
  have hid : String.ofList ∘ String.toList = id := funext fun _ => String.ofList_toList
  rw [hid, List.map_id]

theorem linesOnto_of_not_mem {found : List (List Char)} {line xs : List Char} (h : '\n' ∉ xs)
    (hne : line.reverse ++ xs ≠ []) :
    linesOnto found line xs = found.reverse ++ [line.reverse ++ xs] := by
  induction xs generalizing line with
  | nil =>
      rw [List.append_nil] at hne ⊢
      rw [linesOnto, if_neg (by simpa using hne), List.reverse_cons]
  | cons x xs ih =>
      rw [List.mem_cons, not_or] at h
      rw [linesOnto, if_neg (Ne.symm h.1), ih h.2 (by simp), List.reverse_cons,
        List.append_assoc, List.singleton_append]

/-- A text in one line that is not ended. -/
theorem splitLines_of_not_mem {s : String} (h : '\n' ∉ s.toList) (hne : s ≠ "") :
    splitLines s = [s] := by
  have hchars : s.toList ≠ [] := fun hnil => hne (String.toList_eq_nil_iff.mp hnil)
  have hone := @linesOnto_of_not_mem [] [] s.toList h (by simpa using hchars)
  simp only [List.reverse_nil, List.nil_append] at hone
  rw [splitLines, hone, List.map_singleton, String.ofList_toList]

theorem not_mem_dropReturn {line : List Char} (h : '\n' ∉ line) : '\n' ∉ dropReturn line := by
  unfold dropReturn
  split
  · exact fun hmem => h ((List.dropLast_sublist line).subset hmem)
  · exact h

theorem not_mem_of_mem_linesOnto {found : List (List Char)} {line cs : List Char}
    (hf : ∀ l ∈ found, '\n' ∉ l) (hl : '\n' ∉ line) : ∀ l ∈ linesOnto found line cs, '\n' ∉ l := by
  induction cs generalizing found line with
  | nil =>
      intro l h
      unfold linesOnto at h
      split at h
      · exact hf l (List.mem_reverse.mp h)
      · rcases List.mem_cons.mp (List.mem_reverse.mp h) with rfl | h
        · simpa using hl
        · exact hf l h
  | cons c cs ih =>
      rw [linesOnto]
      split
      · refine ih ?_ List.not_mem_nil
        intro l h
        rcases List.mem_cons.mp h with rfl | h
        · exact not_mem_dropReturn (by simpa using hl)
        · exact hf l h
      · next hc =>
        refine ih hf ?_
        rw [List.mem_cons, not_or]
        exact ⟨Ne.symm hc, hl⟩

theorem not_mem_of_mem_splitLines {s l : String} (h : l ∈ splitLines s) : '\n' ∉ l.toList := by
  obtain ⟨cs, hcs, rfl⟩ := List.mem_map.mp h
  rw [String.toList_ofList]
  exact not_mem_of_mem_linesOnto (by simp) (by simp) cs hcs

end B33
