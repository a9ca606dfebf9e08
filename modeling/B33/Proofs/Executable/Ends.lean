import B33.Proofs.Executable.Reencoding

/-!
# Where an executable ends

A reader that has taken something takes the same from the same bytes, whatever comes behind them,
and from fewer of them nothing: it runs out of bytes before anything else can be wrong. This is so
of each part of an executable, and it is kept where one part is read after another. So an executable
ends where its last part does.
-/
namespace B33.Executable

variable {α β : Type}

/-- The bytes that a reader takes to give a result. -/
structure Takes (r : Reader α) (used : List UInt8) (a : α) : Prop where
  reads : ∀ more, r (used ++ more) = .ok (a, more)
  truncated : ∀ cut, cut <+: used → cut.length < used.length → r cut = .error .truncated

/-- A reader knows where what it reads ends. -/
def SelfDelimiting (r : Reader α) : Prop :=
  ∀ data a rest, r data = .ok (a, rest) → ∃ used, data = used ++ rest ∧ Takes r used a

theorem Takes.bind {r : Reader α} {f : α → Reader β} {first second : List UInt8} {a : α} {b : β}
    (hr : Takes r first a) (hf : Takes (f a) second b) : Takes (r >>= f) (first ++ second) b where
  reads more := by
    rw [state_bind_apply, List.append_assoc, hr.reads]
    exact hf.reads more
  truncated cut hcut hshort := by
    rw [state_bind_apply]
    -- A cut falls into the first part, or comes after it.
    by_cases hlength : cut.length < first.length
    · have hfirst := List.prefix_of_prefix_length_le hcut (List.prefix_append first second)
        (Nat.le_of_lt hlength)
      rw [hr.truncated cut hfirst hlength]
      rfl
    · obtain ⟨later, rfl⟩ := List.prefix_of_prefix_length_le (List.prefix_append first second) hcut
        (Nat.le_of_not_lt hlength)
      rw [hr.reads later]
      apply hf.truncated later ((List.prefix_append_right_inj first).mp hcut)
      rw [List.length_append, List.length_append] at hshort
      exact Nat.lt_of_add_lt_add_left hshort

namespace SelfDelimiting

protected theorem pure (a : α) : SelfDelimiting (pure a) := by
  intro data b rest h
  cases h
  refine ⟨[], rfl, fun more => rfl, ?_⟩
  exact fun cut _ hshort => absurd hshort (Nat.not_lt_zero _)

protected theorem throw (e : FormatError) : SelfDelimiting (throw e : Reader α) := by
  intro data a rest h
  cases h

protected theorem bind {r : Reader α} {f : α → Reader β} (hr : SelfDelimiting r)
    (hf : ∀ a, SelfDelimiting (f a)) : SelfDelimiting (r >>= f) := by
  intro data b rest h
  obtain ⟨a, middle, hfirst, hsecond⟩ := state_bind_eq_ok_iff.mp h
  obtain ⟨first, rfl, htakes⟩ := hr data a middle hfirst
  obtain ⟨second, rfl, hlater⟩ := hf a middle b rest hsecond
  exact ⟨first ++ second, (List.append_assoc _ _ _).symm, htakes.bind hlater⟩

end SelfDelimiting

theorem takeByte_selfDelimiting : SelfDelimiting takeByte := by
  intro data b rest h
  refine ⟨[b], takeByte_eq_ok h, fun more => rfl, ?_⟩
  intro cut _ hshort
  obtain rfl : cut = [] := List.length_eq_zero_iff.mp (Nat.lt_one_iff.mp hshort)
  rfl

theorem takeWord_of_short {data : List UInt8} (h : data.length < 2) :
    takeWord data = .error .truncated := by
  match data, h with
  | [], _ => rfl
  | [low], _ => rfl

theorem takeWord_selfDelimiting : SelfDelimiting takeWord := by
  intro data w rest h
  exact ⟨wordBytes w, takeWord_eq_ok h, fun more => takeWord_append w,
    fun cut _ => takeWord_of_short⟩

theorem takeBytes_of_short {n : Nat} {data : List UInt8} (h : data.length < n) :
    takeBytes n data = .error .truncated := by
  rw [takeBytes_eq, if_neg (Nat.not_le_of_lt h)]

theorem takeBytes_selfDelimiting (n : Nat) : SelfDelimiting (takeBytes n) := by
  intro data bs rest h
  obtain ⟨rfl, hdata⟩ := takeBytes_eq_ok h
  exact ⟨bs, hdata, fun more => takeBytes_append bs, fun cut _ => takeBytes_of_short⟩

/-- Only a whole text is looked at, so a cut inside a character is a missing byte. -/
theorem takeText_selfDelimiting (n : Nat) : SelfDelimiting (takeText n) := by
  apply (takeBytes_selfDelimiting n).bind
  intro bs
  cases String.fromUTF8? ⟨bs.toArray⟩ with
  | none => exact .throw _
  | some s => exact .pure s

theorem takeEntry_selfDelimiting : SelfDelimiting takeEntry := by
  apply takeWord_selfDelimiting.bind
  intro address
  apply takeWord_selfDelimiting.bind
  intro line
  apply takeWord_selfDelimiting.bind
  intro length
  apply (takeText_selfDelimiting length.toNat).bind
  exact fun text => .pure _

theorem takeEntries_selfDelimiting (taken : List DebugEntry) (n : Nat) :
    SelfDelimiting (takeEntries taken n) := by
  induction n generalizing taken with
  | zero => exact .pure _
  | succ n ih =>
      apply takeEntry_selfDelimiting.bind
      exact fun e => ih (e :: taken)

theorem takeLabel_selfDelimiting (t : LabelTable) : SelfDelimiting (takeLabel t) := by
  apply takeWord_selfDelimiting.bind
  intro address
  apply takeByte_selfDelimiting.bind
  intro length
  apply (takeText_selfDelimiting length.toNat).bind
  intro name
  cases t.insert name address with
  | error previous => exact .throw _
  | ok next => exact .pure next

theorem takeLabels_selfDelimiting (t : LabelTable) (n : Nat) :
    SelfDelimiting (takeLabels t n) := by
  induction n generalizing t with
  | zero => exact .pure t
  | succ n ih =>
      apply (takeLabel_selfDelimiting t).bind
      exact ih

theorem refuseIf_selfDelimiting (refused : Bool) (e : FormatError) :
    SelfDelimiting (refuseIf refused e) := by
  cases refused with
  | true => exact .throw e
  | false => exact .pure ()

theorem takeHeader_selfDelimiting : SelfDelimiting takeHeader := by
  apply takeByte_selfDelimiting.bind
  intro found
  apply (refuseIf_selfDelimiting _ _).bind
  intro _
  apply takeWord_selfDelimiting.bind
  intro origin
  apply takeWord_selfDelimiting.bind
  intro entry
  apply takeByte_selfDelimiting.bind
  intro flags
  apply takeWord_selfDelimiting.bind
  intro length
  apply (refuseIf_selfDelimiting _ _).bind
  intro _
  apply (refuseIf_selfDelimiting _ _).bind
  exact fun _ => .pure _

theorem takeTables_selfDelimiting (p : Program) : SelfDelimiting (takeTables p) := by
  unfold takeTables
  cases p.hasDebugInfo with
  | false => exact .pure _
  | true =>
      apply takeWord_selfDelimiting.bind
      intro entryCount
      apply (takeEntries_selfDelimiting [] entryCount.toNat).bind
      intro entries
      apply takeWord_selfDelimiting.bind
      intro labelCount
      apply (takeLabels_selfDelimiting {} labelCount.toNat).bind
      exact fun labels => .pure _

theorem takeProgram_selfDelimiting : SelfDelimiting takeProgram := by
  rw [takeProgram_eq]
  apply takeHeader_selfDelimiting.bind
  intro h
  apply (takeBytes_selfDelimiting h.length.toNat).bind
  exact fun bytes => takeTables_selfDelimiting (h.program bytes)

/-- A shorter signature is none. -/
theorem decode_of_short {data : List UInt8} (h : data.length < signature.length) :
    decode data = .error .badSignature := by
  apply decode_of_not_signed
  apply eq_false_of_ne_true
  intro hsigned
  have hlength := (isSigned_iff.mp hsigned).length_le
  omega

theorem decode_cut {data cut : List UInt8} {p : Program} (h : decode data = .ok p)
    (hcut : cut <+: data) (hne : cut ≠ data) :
    decode cut = .error (if cut.length < signature.length then .badSignature else .truncated) := by
  by_cases hlength : cut.length < signature.length
  · rw [if_pos hlength, decode_of_short hlength]
  · obtain ⟨more, rfl, hmore⟩ := decode_eq_ok_iff.mp h
    obtain ⟨used, hused, htakes⟩ := takeProgram_selfDelimiting more p [] hmore
    rw [List.append_nil] at hused
    subst hused
    obtain ⟨later, rfl⟩ := List.prefix_of_prefix_length_le (List.prefix_append signature more) hcut
      (Nat.le_of_not_lt hlength)
    have hstart := (List.prefix_append_right_inj signature).mp hcut
    have hshort : later.length < more.length := by
      apply Nat.lt_of_le_of_ne hstart.length_le
      intro hsame
      exact hne (congrArg (signature ++ ·) (hstart.eq_of_length hsame))
    rw [if_neg hlength, decode_signature, htakes.truncated later hstart hshort]
    rfl

theorem decode_append {data more : List UInt8} {p : Program} (h : decode data = .ok p)
    (hmore : more ≠ []) : decode (data ++ more) = .error (.trailingData more.length) := by
  obtain ⟨body, rfl, hbody⟩ := decode_eq_ok_iff.mp h
  obtain ⟨used, hused, htakes⟩ := takeProgram_selfDelimiting body p [] hbody
  rw [List.append_nil] at hused
  subst hused
  rw [List.append_assoc, decode_signature, htakes.reads more]
  cases more with
  | nil => exact absurd rfl hmore
  | cons b more => rfl

end B33.Executable
