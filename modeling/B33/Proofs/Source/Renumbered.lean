import B33.Proofs.Source.Recast

/-!
# Lines and their numbers

How a line is read does not depend on its number. Under another number it is read as the same line,
or refused for the same cause, and the number is the only thing that differs.
-/
namespace B33

/-- The error on another line. -/
def SourceError.renumber (g : Nat → Nat) (e : SourceError) : SourceError :=
  { e with line := g e.line }

namespace Source

theorem TokenKind.mapText_id : mapText id = id := by
  funext k
  cases k <;> rfl

theorem Expression.mapText_id : mapText id = id := by
  funext e
  cases e <;> rfl

theorem Operand.mapText_id : mapText id = id := by
  funext operand
  cases operand <;> simp [mapText, Expression.mapText_id]

theorem Statement.mapText_id : mapText id = id := by
  funext s
  cases s <;> simp [mapText, Expression.mapText_id, Operand.mapText_id]

theorem Cause.mapText_id : mapText id = id := by
  funext c
  cases c <;> rfl

/-- Only the numbers of lines are changed. -/
def Recasting.numbers (g : Nat → Nat) : Recasting := ⟨id, g⟩

theorem Token.recast_numbers (g : Nat → Nat) (t : Token) :
    t.recast (.numbers g) = { t with line := g t.line } := by
  simp [Token.recast, Recasting.numbers, TokenKind.mapText_id]

def Line.renumber (g : Nat → Nat) (line : Line) : Line := { line with number := g line.number }

variable (g : Nat → Nat)

theorem scanOnto_renumber (line column : Nat) (found : Array Token) (cs : List Char) :
    scanOnto (g line) column (found.map (Token.recast (.numbers g))) cs =
      mapBoth (SourceError.renumber g) (Array.map (Token.recast (.numbers g)))
        (scanOnto line column found cs) := by
  fun_induction scanOnto line column found cs with
  | case1 =>
      rw [scanOnto]
      rfl
  | case2 column found c rest cause hscan =>
      rw [scanOnto, hscan]
      rfl
  | case3 column found c rest kind more hscan token ih =>
      rw [scanOnto, hscan, ← ih, Array.map_push]
      simp only [token, Token.recast_numbers]

theorem tokenizeLine_renumber (number : Nat) (text : String) :
    tokenizeLine (g number) text =
      mapBoth (SourceError.renumber g) (Cursor.recast (.numbers g)) (tokenizeLine number text) := by
  unfold tokenizeLine
  have hscan := scanOnto_renumber g number 0 #[] text.toList
  rw [Array.map_empty] at hscan
  rw [hscan]
  exact map_mapBoth (fun found => Array.toList_map) _

theorem parseParts_renumber (ts : Cursor) :
    Line.parseParts (ts.recast (.numbers g)) =
      mapBoth id (Prod.map id (Cursor.recast (.numbers g))) (Line.parseParts ts) := by
  have h := Line.recasts_parseParts (r := .numbers g) ts
  simpa only [Recasting.numbers, Cause.mapText_id, Statement.mapText_id, Option.map_id,
    Prod.map_id] using h

/-- A line under another number. -/
theorem Line.parse_renumber (number : Nat) (text : String) :
    Line.parse (g number) text =
      mapBoth (SourceError.renumber g) (Line.renumber g) (Line.parse number text) := by
  unfold Line.parse
  rw [tokenizeLine_renumber]
  cases tokenizeLine number text with
  | error e => rfl
  | ok ts =>
      have hparts := parseParts_renumber g ts
      simp only [mapBoth, ok_bind, StateT.run, hparts]
      cases Line.parseParts ts with
      | error c => rfl
      | ok parts => rfl

end Source

end B33
