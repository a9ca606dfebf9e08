import B33.Assembly.Emission
import B33.Proofs.Except
import B33.Proofs.Assembly.Encodes

/-!
# Names that statements use

Emission looks up the names that a statement uses and no others, and cannot do without any of them.
A source is written backwards if each name that a line uses is the label of an earlier line, or the
line's own where the line already knows it.
-/
namespace B33

namespace Source

/-- The names that an expression uses. -/
def Expression.names : Expression → List String
  | number _ => []
  | symbol name _ => [name]

def Operand.names : Operand → List String
  | inherent | indexed _ => []
  | immediate e | address e => e.names

def Statement.names : Statement → List String
  | instruction _ operand => operand.names
  | reserve e | define e => e.names
  | bytes es => es.flatMap Expression.names
  | finish (some e) => e.names
  | string _ | finish none => []

namespace Line

def names (line : Line) : List String := (line.statement.map Statement.names).getD []

/-- Whether the statement of a line knows the label of the line. A number of bytes to reserve and
the value of a definition do not. -/
def knowsLabel (line : Line) : Bool :=
  match line.statement with
  | some (.define _) | some (.reserve _) => false
  | _ => true

def IsLabelled (line : Line) (name : String) : Prop :=
  ∃ label, line.label = some label ∧ foldCase label = foldCase name

/-- Every name that a line uses is a label of the lines before, or its own where it knows that. -/
def LooksBack (before : List Line) (line : Line) : Prop :=
  ∀ name ∈ line.names, (∃ earlier ∈ before, earlier.IsLabelled name) ∨
    line.knowsLabel = true ∧ line.IsLabelled name

end Line

/-- No line uses a name that is only defined behind it. -/
def Backward (lines : List Line) : Prop :=
  ∀ (k : Nat) (hk : k < lines.length), lines[k].LooksBack (lines.take k)

/-- The names that lines use are labels of these lines. -/
theorem Backward.exists_labelled {lines : List Line} (h : Backward lines) {line : Line}
    (hline : line ∈ lines) {name : String} (hname : name ∈ line.names) :
    ∃ l ∈ lines, l.IsLabelled name := by
  obtain ⟨k, hk, rfl⟩ := List.getElem_of_mem hline
  rcases h k hk name hname with ⟨earlier, hmem, hlabelled⟩ | ⟨-, hlabelled⟩
  · exact ⟨earlier, List.mem_of_mem_take hmem, hlabelled⟩
  · exact ⟨_, hline, hlabelled⟩

theorem backward_append_singleton {lines : List Line} {line : Line} :
    Backward (lines ++ [line]) ↔ Backward lines ∧ line.LooksBack lines := by
  constructor
  · intro h
    refine ⟨fun k hk => ?_, ?_⟩
    · have hline := h k (by rw [List.length_append]; omega)
      rwa [List.getElem_append_left hk, List.take_append_of_le_length hk.le] at hline
    · have hline := h lines.length (by simp)
      rwa [List.getElem_concat_length rfl, List.take_left] at hline
  · rintro ⟨h, hline⟩ k hk
    by_cases hlt : k < lines.length
    · rw [List.getElem_append_left hlt, List.take_append_of_le_length hlt.le]
      exact h k hlt
    · obtain rfl : k = lines.length := by
        rw [List.length_append, List.length_singleton] at hk
        omega
      rwa [List.getElem_concat_length rfl, List.take_left]

end Source

namespace Assembly
open Source

section
variable {s t : Symbols} {address : UInt16}

theorem value_congr {env env' : Environment} {e : Expression}
    (h : ∀ name ∈ e.names, env name = env' name) : e.value env = e.value env' := by
  cases e with
  | number n => rfl
  | symbol name offset => rw [Expression.value, Expression.value, h name (List.mem_singleton_self _)]

theorem exists_value_of_mem {env : Environment} {e : Expression} {v : Int} (h : e.value env = .ok v) :
    ∀ name ∈ e.names, ∃ w, env name = some w := by
  intro name hname
  cases e with
  | number n => cases hname
  | symbol name' offset =>
      obtain rfl := List.mem_singleton.mp hname
      cases hw : env name with
      | some w => exact ⟨w, rfl⟩
      | none =>
          rw [Expression.value, hw] at h
          cases h

/-- Emission depends on nothing but what the names in a statement stand for. -/
theorem emitStatement_congr {statement : Statement}
    (h : ∀ name ∈ statement.names, s.value? name = t.value? name) :
    emitStatement s address statement = emitStatement t address statement := by
  cases statement with
  | define e => rfl
  | string text => rfl
  | instruction m operand =>
      cases operand with
      | inherent | indexed => rfl
      | immediate e | address e => simp only [emitStatement, emitInstruction, value_congr h]
  | reserve e => simp only [emitStatement, value_congr h]
  | bytes es =>
      have hes : (es.mapM fun e => e.value s.value? >>= byteOf) =
          es.mapM fun e => e.value t.value? >>= byteOf := by
        refine mapM_congr fun e he => ?_
        rw [value_congr fun name hname => h name (List.mem_flatMap.mpr ⟨e, he, hname⟩)]
      simp only [emitStatement, hes]
  | finish e =>
      cases e with
      | none => rfl
      | some e => simp only [emitStatement, value_congr h]

/-- Whatever is emitted, all its names stand for something. -/
theorem exists_value_of_emitStatement {statement : Statement} {out : Emitted}
    (hd : ∀ e, statement ≠ .define e) (h : emitStatement s address statement = .ok out) :
    ∀ name ∈ statement.names, ∃ w, s.value? name = some w := by
  cases statement with
  | define e => exact (hd e rfl).elim
  | string text => simp [Statement.names]
  | instruction m operand =>
      obtain ⟨i, -, h⟩ := bind_eq_ok_iff.mp h
      cases operand with
      | inherent | indexed => simp [Statement.names, Operand.names]
      | immediate e | address e =>
          obtain ⟨v, hv, -⟩ := bind_eq_ok_iff.mp h
          exact exists_value_of_mem hv
  | reserve e =>
      obtain ⟨v, hv, -⟩ := bind_eq_ok_iff.mp h
      exact exists_value_of_mem hv
  | bytes es =>
      obtain ⟨bs, hbs, -⟩ := bind_eq_ok_iff.mp h
      intro name hname
      obtain ⟨e, he, hname⟩ := List.mem_flatMap.mp hname
      obtain ⟨b, hb⟩ := exists_of_mapM_eq_ok hbs e he
      obtain ⟨v, hv, -⟩ := bind_eq_ok_iff.mp hb
      exact exists_value_of_mem hv name hname
  | finish e =>
      cases e with
      | none => simp [Statement.names]
      | some e =>
          obtain ⟨v, hv, -⟩ := bind_eq_ok_iff.mp h
          exact exists_value_of_mem hv

end

end Assembly

end B33
