import B33.Analysis
import B33.Proofs.Instruction
import B33.Proofs.NameTable

/-!
# The decoded lines

Decoding covers the bytes of a program from the first to the last, each byte once, so the decoded
lines stand one behind the other. A label is placed only where one of them starts.
-/
namespace B33

/-- A decoded line is one byte or a whole legal instruction. -/
inductive Decoded.Valid : Decoded → Prop
  | data (address : UInt16) (byte : UInt8) : Valid ⟨address, none, [byte]⟩
  | instruction (address : UInt16) {i : Instruction} {operand : List UInt8} :
      i ∈ Instruction.table → operand.length = i.operandLength →
      (∀ byte, i.mode = .indexed → operand = [byte] →
        ∃ form, IndexForm.decode byte = .ok form) →
      Valid ⟨address, some i, i.opcode :: operand⟩

theorem Decoded.Valid.length_pos {d : Decoded} (h : d.Valid) : 0 < d.bytes.length := by
  cases h <;> simp

namespace Analysis

/-- Decoded lines that cover bytes from an address on. -/
inductive Spans : Nat → List Decoded → List UInt8 → Prop
  | nil (n : Nat) : Spans n [] []
  | cons {n : Nat} {d : Decoded} {ds : List Decoded} {bs : List UInt8} :
      d.Valid → d.address = UInt16.ofNat n → Spans (n + d.bytes.length) ds bs →
      Spans n (d :: ds) (d.bytes ++ bs)

theorem valid_of_instructionAt? {address : UInt16} {opcode : UInt8} {rest : List UInt8}
    {i : Instruction} (h : instructionAt? opcode rest = some i) :
    Decoded.Valid ⟨address, some i, opcode :: rest.take i.operandLength⟩ ∧
      (rest.take i.operandLength).length = i.operandLength := by
  obtain ⟨hdecode, hoperand⟩ := Option.filter_eq_some_iff.mp h
  obtain ⟨htable, rfl⟩ := Instruction.decode_eq_some_iff.mp hdecode
  unfold isOperand at hoperand
  rw [Bool.and_eq_true, beq_iff_eq] at hoperand
  obtain ⟨hlength, hindex⟩ := hoperand
  refine ⟨.instruction address htable hlength fun byte hmode hbyte => ?_, hlength⟩
  rw [hmode, hbyte] at hindex
  dsimp only at hindex
  cases hd : IndexForm.decode byte with
  | error e =>
      rw [hd] at hindex
      cases hindex
  | ok form => exact ⟨form, rfl⟩

/-- The decoded lines are added behind those that were there. -/
theorem decodeOnto_spans {n : Nat} {address : UInt16} (found : Array Decoded) (bytes : List UInt8)
    (ha : address = UInt16.ofNat n) :
    ∃ ds, decodeOnto address found bytes = found ++ ds.toArray ∧ Spans n ds bytes := by
  -- The address wraps where `n` does not, so both go along: `Spans` counts past the end of memory.
  fun_induction decodeOnto address found bytes generalizing n with
  | case1 => exact ⟨[], by simp, .nil n⟩
  | case2 address found opcode rest i k =>
      rename_i ih
      have hd : Decoded.Valid ⟨address, i, opcode :: rest.take k⟩ ∧ (rest.take k).length = k := by
        cases hi : instructionAt? opcode rest with
        | none =>
            have hik : i = none := hi
            have hk : k = 0 := by simp [k, hik]
            rw [hik, hk]
            exact ⟨.data address opcode, rfl⟩
        | some j =>
            have hij : i = some j := hi
            have hk : k = j.operandLength := by simp [k, hij]
            rw [hij, hk]
            exact valid_of_instructionAt? hi
      have hnext : address + UInt16.ofNat (k + 1) = UInt16.ofNat (n + (k + 1)) := by
        rw [ha, UInt16.ofNat_add n]
      obtain ⟨ds, hds, hspans⟩ := ih hnext
      refine ⟨⟨address, i, opcode :: rest.take k⟩ :: ds, ?_, ?_⟩
      · rw [hds]
        simp
      · have hcons : opcode :: rest = (opcode :: rest.take k) ++ rest.drop k := by
          rw [List.cons_append, List.take_append_drop]
        rw [hcons]
        refine .cons hd.1 ha ?_
        rw [List.length_cons, hd.2]
        exact hspans

theorem decode_spans (p : Program) : Spans p.origin.toNat (decode p) p.bytes := by
  obtain ⟨ds, hds, hspans⟩ := decodeOnto_spans #[] p.bytes (UInt16.ofNat_toNat (x := p.origin)).symm
  rw [decode, hds]
  simpa using hspans

theorem Spans.valid {n : Nat} {ds : List Decoded} {bs : List UInt8} (h : Spans n ds bs) :
    ∀ d ∈ ds, d.Valid := by
  induction h with
  | nil => simp
  | cons hd _ _ ih => exact List.forall_mem_cons.mpr ⟨hd, ih⟩

/-- Decoded lines in memory stand one behind the other. -/
theorem Spans.pairwise {n : Nat} {ds : List Decoded} {bs : List UInt8} (h : Spans n ds bs)
    (hend : n + bs.length ≤ 0x10000) :
    (∀ d ∈ ds, n ≤ d.address.toNat) ∧ ds.Pairwise fun c d => c.address.toNat < d.address.toNat := by
  induction h with
  | nil => simp
  | @cons n d ds bs hd ha _ ih =>
      have hpos := hd.length_pos
      rw [List.length_append] at hend
      obtain ⟨hafter, hpairwise⟩ := ih (by omega)
      have hn : d.address.toNat = n := by
        rw [ha]
        exact toNat_ofNat_of_le (by omega)
      refine ⟨List.forall_mem_cons.mpr ⟨by omega, fun c hc => ?_⟩, .cons (fun c hc => ?_) hpairwise⟩
      · have := hafter c hc
        omega
      · have := hafter c hc
        omega

theorem foldl_set_get (ds : List Decoded) (v : Vector Bool 65536) {k : Nat} (hk : k < 65536) :
    (ds.foldl (fun v d => v.set d.address.toNat true d.address.toNat_lt) v)[k] = true ↔
      v[k] = true ∨ ∃ d ∈ ds, d.address.toNat = k := by
  induction ds generalizing v with
  | nil => simp
  | cons d ds ih =>
      rw [List.foldl_cons, ih, Vector.getElem_set]
      by_cases hd : d.address.toNat = k
      · simp [hd]
      · simp [hd]

theorem boundaries_get (ds : List Decoded) (address : UInt16) :
    (boundaries ds).get ⟨address.toNat, address.toNat_lt⟩ = true ↔
      ∃ d ∈ ds, d.address = address := by
  have hk : address.toNat < 65536 := address.toNat_lt
  have hget := foldl_set_get ds (Vector.replicate 65536 false) hk
  simp only [Vector.getElem_replicate, Bool.false_eq_true, false_or, UInt16.toNat_inj] at hget
  exact hget

/-- Of several values for a key the first stays. -/
theorem getElem?_foldl_insertIfNew {ι β : Type} (key : ι → UInt16) (value : ι → β) (es : List ι)
    (m : Std.HashMap UInt16 β) (k : UInt16) :
    (es.foldl (fun m e => m.insertIfNew (key e) (value e)) m)[k]? =
      (m[k]?).or ((es.find? (key · == k)).map value) := by
  induction es generalizing m with
  | nil => simp
  | cons e es ih =>
      rw [List.foldl_cons, ih, Std.HashMap.getElem?_insertIfNew, List.find?_cons]
      by_cases hk : key e = k
      · subst hk
        cases hm : m[key e]? with
        | none =>
            have hmem : key e ∉ m := by
              rw [← Std.HashMap.isSome_getElem?_iff_mem, hm]
              simp
            simp [hmem]
        | some b =>
            have hmem : key e ∈ m := by
              rw [← Std.HashMap.isSome_getElem?_iff_mem, hm]
              rfl
            simp [hmem]
      · have hne : (key e == k) = false := by simpa using hk
        simp [hne]

/-- How the targets of a program are named: by the first label of an address where a line starts. -/
def placement (p : Program) : Placement := fun address =>
  if (boundaries (decode p)).get ⟨address.toNat, address.toNat_lt⟩ then
    (firstLabels p.labels)[address]?
  else none

theorem placement_eq_some {p : Program} {address : UInt16} {name : String}
    (h : placement p address = some name) :
    (∃ d ∈ decode p, d.address = address) ∧ (name, address) ∈ p.labels.toList := by
  unfold placement at h
  split at h
  · next hstart =>
    refine ⟨(boundaries_get _ _).mp hstart, ?_⟩
    have hfirst := getElem?_foldl_insertIfNew (·.2) (·.1) p.labels.entries.toList {} address
    rw [firstLabels, ← Array.foldl_toList] at h
    rw [h] at hfirst
    simp only [Std.HashMap.getElem?_empty, Option.none_or] at hfirst
    obtain ⟨e, hfind, rfl⟩ := Option.map_eq_some_iff.mp hfirst.symm
    have haddress := List.find?_some hfind
    rw [beq_iff_eq] at haddress
    subst haddress
    exact List.mem_of_find?_eq_some hfind
  · cases h

/-- What is said of a decoded line is a debug entry's text, if one is taken. -/
theorem mem_of_firstEntries {p : Program} {address : UInt16} {e : DebugEntry}
    (h : (firstEntries p)[address]? = some e) : e ∈ p.debugEntries := by
  have hfirst := getElem?_foldl_insertIfNew (·.address) id p.debugEntries {} address
  rw [firstEntries] at h
  simp only [id_eq] at hfirst
  rw [h] at hfirst
  simp only [Std.HashMap.getElem?_empty, Option.none_or, Option.map_id_fun, id_eq] at hfirst
  exact List.mem_of_find?_eq_some hfirst.symm

end Analysis

end B33
