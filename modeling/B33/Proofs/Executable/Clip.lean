import B33.Executable

/-!
# Cut texts

A text that is too long for its length field is cut to the longest prefix that fits, which never
ends inside a character, and what is written of a text is read again as the same text.
-/
namespace B33.Executable

/-- A text is the longest prefix of another that takes at most `room` bytes. -/
structure LongestFit (room : Nat) (s t : String) : Prop where
  starts : t.toList <+: s.toList
  fits : t.utf8ByteSize ≤ room
  longest : ∀ u : String, u.toList <+: s.toList → u.utf8ByteSize ≤ room → u.toList <+: t.toList

theorem utf8ByteSize_ofList_cons (c : Char) (cs : List Char) :
    (String.ofList (c :: cs)).utf8ByteSize = c.utf8Size + (String.ofList cs).utf8ByteSize := by
  rw [String.ofList_cons, String.utf8ByteSize_append, String.utf8ByteSize_singleton]

/-- The characters kept are the first ones, and the next one would not fit. -/
theorem clipOnto_eq (taken : List Char) (room : Nat) (cs : List Char) :
    ∃ kept rest, clipOnto taken room cs = taken.reverse ++ kept ∧ cs = kept ++ rest ∧
      (String.ofList kept).utf8ByteSize ≤ room ∧
      ∀ c rest', rest = c :: rest' → room < (String.ofList kept).utf8ByteSize + c.utf8Size := by
  induction cs generalizing taken room with
  | nil => exact ⟨[], [], by simp [clipOnto], rfl, by simp, by simp⟩
  | cons c cs ih =>
      by_cases hc : c.utf8Size ≤ room
      · obtain ⟨kept, rest, h₁, h₂, h₃, h₄⟩ := ih (c :: taken) (room - c.utf8Size)
        refine ⟨c :: kept, rest, ?_, by rw [h₂, List.cons_append], ?_, ?_⟩
        · rw [clipOnto, if_pos hc, h₁, List.reverse_cons, List.append_assoc,
            List.singleton_append]
        · rw [utf8ByteSize_ofList_cons]
          omega
        · intro d rest' hd
          have := h₄ d rest' hd
          rw [utf8ByteSize_ofList_cons]
          omega
      · refine ⟨[], c :: cs, by simp [clipOnto, hc], rfl, by simp, ?_⟩
        intro d rest' hd
        cases hd
        simpa using hc

theorem longestFit_clip (room : Nat) (s : String) : LongestFit room s (clip room s) := by
  by_cases hs : s.utf8ByteSize ≤ room
  · rw [clip, if_pos hs]
    exact ⟨List.prefix_rfl, hs, fun u hu _ => hu⟩
  · obtain ⟨kept, rest, h₁, h₂, h₃, h₄⟩ := clipOnto_eq [] room s.toList
    rw [clip, if_neg hs, h₁, List.reverse_nil, List.nil_append]
    refine ⟨?_, h₃, ?_⟩
    · rw [String.toList_ofList, h₂]
      exact List.prefix_append _ _
    · intro u hu hsize
      rw [String.toList_ofList]
      rcases List.prefix_or_prefix_of_prefix hu (h₂ ▸ List.prefix_append kept rest) with h | h
      · exact h
      obtain ⟨more, hmore⟩ := h
      cases more with
      | nil => exact ⟨[], by simpa using hmore.symm⟩
      | cons c more =>
          -- The prefix would have the first character that was left out.
          obtain ⟨tail, htail⟩ := hu
          have hrest : rest = c :: (more ++ tail) := by
            rw [← htail, ← hmore, List.append_assoc] at h₂
            exact (List.append_cancel_left h₂).symm
          have hbig := h₄ c _ hrest
          have hu : u = String.ofList kept ++ String.ofList (c :: more) := by
            rw [← String.ofList_append, hmore, String.ofList_toList]
          rw [hu, String.utf8ByteSize_append, utf8ByteSize_ofList_cons] at hsize
          omega

theorem length_textBytes (s : String) : (textBytes s).length = s.utf8ByteSize := by
  simp [textBytes]

theorem length_clip_le (room : Nat) (s : String) : (textBytes (clip room s)).length ≤ room := by
  rw [length_textBytes]
  exact (longestFit_clip room s).fits

theorem fromUTF8?_textBytes (s : String) :
    String.fromUTF8? ⟨(textBytes s).toArray⟩ = some s := by
  have h : (⟨(textBytes s).toArray⟩ : ByteArray) = s.toByteArray := by
    rw [textBytes, Array.toArray_toList]
    rfl
  rw [h, String.fromUTF8?, dif_pos s.isValidUTF8]
  rfl

/-- Bytes that are read as a text are the bytes of that text. -/
theorem textBytes_of_fromUTF8? {bs : List UInt8} {s : String}
    (h : String.fromUTF8? ⟨bs.toArray⟩ = some s) : textBytes s = bs := by
  unfold String.fromUTF8? at h
  split at h
  · cases h
    simp [textBytes, String.fromUTF8]
  · cases h

/-- A text that fits is not cut. -/
theorem clip_of_length_le {room : Nat} {s : String} (h : (textBytes s).length ≤ room) :
    clip room s = s := by
  rw [length_textBytes] at h
  exact if_pos h

end B33.Executable
