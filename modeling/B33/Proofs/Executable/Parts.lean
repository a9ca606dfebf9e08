import B33.Proofs.Executable.RoundTrip

/-!
# The parts of an executable

The reader of a program is the reader of its header, which refuses what cannot be a program, the
reader of its bytes and the reader of its tables.
-/
namespace B33.Executable

def refuseIf (refused : Bool) (e : FormatError) : Reader Unit :=
  if refused then throw e else return ()

/-- What stands between the signature and the bytes of a program. -/
structure Header where
  origin : UInt16
  entry : UInt16
  flags : UInt8
  length : UInt16

/-- The program that a header begins, without its tables. -/
def Header.program (h : Header) (bytes : List UInt8) : Program where
  bytes := bytes
  origin := h.origin
  entry := h.entry
  hasDebugInfo := h.flags &&& debugFlag != 0
  dualMonitor := h.flags &&& dualMonitorFlag != 0
  kind := .executable

def takeHeader : Reader Header := do
  let found ← takeByte
  refuseIf (found != version) (.unsupportedVersion found)
  let origin ← takeWord
  let entry ← takeWord
  let flags ← takeByte
  let length ← takeWord
  refuseIf (origin.toNat + length.toNat > 0x10000) (.originOutOfRange origin length.toNat)
  refuseIf (0 < length.toNat &&
    !(origin.toNat ≤ entry.toNat && entry.toNat < origin.toNat + length.toNat))
    (.entryOutside entry)
  return { origin, entry, flags, length }

theorem refuseIf_bind {α : Type} (refused : Bool) (e : FormatError) (x : Unit → Reader α) :
    (refuseIf refused e >>= x) = if refused then throw e else x () := by
  cases refused <;> rfl

theorem throw_bind {α β : Type} (e : FormatError) (x : α → Reader β) :
    ((throw e : Reader α) >>= x) = throw e := rfl

theorem takeProgram_eq :
    takeProgram = (takeHeader >>= fun h =>
      takeBytes h.length.toNat >>= fun bytes => takeTables (h.program bytes)) := by
  unfold takeProgram takeHeader
  simp only [bind_assoc, pure_bind]
  simp only [refuseIf_bind, throw_bind, decide_eq_true_eq]
  rfl

theorem isSigned_iff {data : List UInt8} : isSigned data = true ↔ signature <+: data :=
  List.isPrefixOf_iff_prefix

theorem decode_of_not_signed {data : List UInt8} (h : isSigned data = false) :
    decode data = .error .badSignature := by
  rw [decode, h]
  rfl

/-- An executable is its signature and a program behind which nothing is left. -/
theorem decode_eq_ok_iff {data : List UInt8} {p : Program} :
    decode data = .ok p ↔ ∃ more, data = signature ++ more ∧ takeProgram more = .ok (p, []) := by
  constructor
  · intro h
    cases hsigned : isSigned data with
    | false =>
        rw [decode_of_not_signed hsigned] at h
        cases h
    | true =>
        obtain ⟨more, rfl⟩ := isSigned_iff.mp hsigned
        rw [decode_signature] at h
        obtain ⟨⟨q, rest⟩, hq, hend⟩ := bind_eq_ok_iff.mp h
        cases rest with
        | nil =>
            cases hend
            exact ⟨more, rfl, hq⟩
        | cons b rest => cases hend
  · rintro ⟨more, rfl, h⟩
    rw [decode_signature, h]
    rfl

end B33.Executable
