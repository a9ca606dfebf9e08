import B33.Assembly.Layout
import B33.Proofs.Assembly.Encodes
import B33.Proofs.Source.Line

/-!
# Layouts

What one more line does to a layout, and what is true of every layout that lines were placed in: the
lines lie one after the other from the origin on, no name is defined twice, and each label stands
for the address of its line. Values that were looked up early are still right at the end, because
names only ever gain a value.
-/
namespace B33

namespace Source.Line

/-- The label of a line that stands for an address. -/
def addressLabel? (line : Line) : Option String := if line.isDefinition then none else line.label

/-- What the label of a line at an address stands for. -/
def labelValue (env : Assembly.Environment) (address : UInt16) (line : Line) : Except Cause Int :=
  match line.statement with
  | some (.define e) => e.value env
  | _ => .ok address.toNat

/-- A line at an address gives a name its value. -/
def Defines (env : Assembly.Environment) (address : UInt16) (line : Line) (name : String)
    (v : Int) : Prop :=
  ∃ label, line.label = some label ∧ foldCase label = foldCase name ∧
    line.labelValue env address = .ok v

end Source.Line

namespace Assembly
open Source

/-- The number of bytes that a line takes. -/
def lineSize (symbols : Symbols) (line : Line) : Except Cause Nat :=
  match line.statement with
  | none => .ok 0
  | some s => sizeOf symbols s

section Growth
variable {s t : Symbols} (h : s.Extends t)
include h

theorem sizeOf_mono {statement : Statement} {n : Nat} (hn : sizeOf s statement = .ok n) :
    sizeOf t statement = .ok n := by
  cases statement with
  | reserve e =>
      obtain ⟨v, hv, hn⟩ := bind_eq_ok_iff.mp hn
      exact bind_eq_ok_iff.mpr ⟨v, value_mono h hv, hn⟩
  | define e => exact hn
  | instruction m operand => exact hn
  | string text => exact hn
  | bytes es => exact hn
  | finish e => exact hn

theorem lineSize_mono {line : Line} {n : Nat} (hn : lineSize s line = .ok n) :
    lineSize t line = .ok n := by
  unfold lineSize at hn ⊢
  split
  · next hs => simpa only [hs] using hn
  · next hs => exact sizeOf_mono h (by simpa only [hs] using hn)

theorem labelValue_mono {line : Line} {address : UInt16} {v : Int}
    (hv : line.labelValue s.value? address = .ok v) :
    line.labelValue t.value? address = .ok v := by
  unfold Line.labelValue at hv ⊢
  split
  · next hs => exact value_mono h (by simpa only [hs] using hv)
  · next hs =>
    split at hv
    · next hs' => exact (hs _ hs').elim
    · exact hv

end Growth

/-- Lines that lie one after the other. -/
inductive Tiles (symbols : Symbols) : Nat → List PlacedLine → Nat → Prop
  | nil (n : Nat) : Tiles symbols n [] n
  | cons {n m size : Nat} {p : PlacedLine} {ps : List PlacedLine} :
      lineSize symbols p.line = .ok size → p.address = UInt16.ofNat n →
      Tiles symbols (n + size) ps m → Tiles symbols n (p :: ps) m

namespace Tiles
variable {s t : Symbols} {n m size : Nat} {p : PlacedLine} {ps : List PlacedLine}

theorem mono (h : s.Extends t) (ht : Tiles s n ps m) : Tiles t n ps m := by
  induction ht with
  | nil n => exact .nil n
  | cons hs ha _ ih => exact .cons (lineSize_mono h hs) ha ih

theorem snoc (ht : Tiles s n ps m) (hs : lineSize s p.line = .ok size)
    (ha : p.address = UInt16.ofNat m) : Tiles s n (ps ++ [p]) (m + size) := by
  induction ht with
  | nil n => exact .cons hs ha (.nil _)
  | cons hs' ha' _ ih => exact .cons hs' ha' (ih ha)

end Tiles

namespace Layout

section
variable {origin : UInt16} {lines : Array PlacedLine} {s t : Symbols} {finish size : Nat}
  {line : Line} {name : String}

/-- A definition takes no bytes, and its value may be a signed or an unsigned word. -/
theorem place_definition {e : Expression} {v : Int} (hs : line.statement = some (.define e))
    (hl : line.label = some name) (hv : e.value s.value? = .ok v) (hleast : -32768 ≤ v)
    (hgreatest : v ≤ 0xFFFF) (ht : s.defineConstant name v = .ok t) :
    place origin ⟨lines, s, finish⟩ line =
      .ok ⟨lines.push { line, address := UInt16.ofNat finish }, t, finish⟩ := by
  have hrange : checkRange v (-32768) 0xFFFF = .ok () :=
    checkRange_eq_ok_iff.mpr ⟨hleast, hgreatest⟩
  simp only [place, hs, placeDefinition, hv, hrange, hl, Option.getD_some, ht, ok_bind]
  rfl

section
variable (hd : ∀ e, line.statement ≠ some (.define e)) (hsize : lineSize s line = .ok size)
include hd hsize

theorem place_eq_placeSized :
    place origin ⟨lines, s, finish⟩ line = placeSized origin ⟨lines, s, finish⟩ line size := by
  unfold lineSize at hsize
  unfold place
  split
  · next e he => exact (hd e he).elim
  · next statement _ hstatement =>
    rw [hstatement] at hsize
    dsimp only at hsize ⊢
    rw [hsize, ok_bind]
  · next hstatement =>
    rw [hstatement] at hsize
    cases hsize
    rfl

variable (hm : finish + size ≤ 0x10000) (ho : finish + size ≤ origin.toNat + 0xFFFF)
include hm ho

theorem place_unlabelled (hl : line.label = none) :
    place origin ⟨lines, s, finish⟩ line =
      .ok ⟨lines.push { line, address := UInt16.ofNat finish }, s, finish + size⟩ := by
  have hsmall : ¬0xFFFF < finish + size - origin.toNat := by omega
  rw [place_eq_placeSized hd hsize, placeSized]
  simp [hl, Nat.not_lt.mpr hm, hsmall]

theorem place_labelled (hl : line.label = some name) (hlabel : finish ≤ 0xFFFF)
    (ht : s.defineLabel name (UInt16.ofNat finish) = .ok t) :
    place origin ⟨lines, s, finish⟩ line =
      .ok ⟨lines.push { line, address := UInt16.ofNat finish }, t, finish + size⟩ := by
  have hsmall : ¬0xFFFF < finish + size - origin.toNat := by omega
  rw [place_eq_placeSized hd hsize, placeSized]
  simp [hl, Nat.not_lt.mpr hm, hsmall, Nat.not_lt.mpr hlabel, ht]

end
end

/-- What placing a line does to a layout. -/
structure Step (origin : UInt16) (l : Layout) (line : Line) (size : Nat) (l' : Layout) :
    Prop where
  size_eq : lineSize l.symbols line = .ok size
  lines_eq : l'.lines = l.lines.push { line, address := UInt16.ofNat l.finish }
  finish_eq : l'.finish = l.finish + size
  finish_le : l.finish ≤ 0x10000 → l'.finish ≤ 0x10000
  length_le : l.finish ≤ origin.toNat + 0xFFFF → l'.finish ≤ origin.toNat + 0xFFFF
  unlabelled : line.label = none → l'.symbols = l.symbols
  labelled : ∀ name, line.label = some name →
    ∃ v, line.labelValue l.symbols.value? (UInt16.ofNat l.finish) = .ok v ∧
      Symbols.Gains l.symbols l'.symbols name v
  labels_eq : l'.symbols.labels.toList = l.symbols.labels.toList ++
    (line.addressLabel?.map fun name => (name, UInt16.ofNat l.finish)).toList
  value : ∀ e, line.statement = some (.define e) →
    ∃ v, e.value l.symbols.value? = .ok v ∧ -32768 ≤ v ∧ v ≤ 0xFFFF

theorem placeDefinition_step {origin : UInt16} {l l' : Layout} {line : Line} {e : Expression}
    (hs : line.statement = some (.define e)) (hl : line.label.isSome)
    (h : l.placeDefinition line e = .ok l') : Step origin l line 0 l' := by
  obtain ⟨lines, symbols, finish⟩ := l
  obtain ⟨v, hv, h⟩ := bind_eq_ok_iff.mp h
  obtain ⟨_, hr, h⟩ := bind_eq_ok_iff.mp h
  obtain ⟨t, ht, h⟩ := bind_eq_ok_iff.mp h
  cases h
  obtain ⟨name, hname⟩ := Option.isSome_iff_exists.mp hl
  rw [hname, Option.getD_some] at ht
  obtain ⟨hg, hlabels⟩ := Symbols.defineConstant_eq_ok ht
  refine ⟨?_, rfl, rfl, id, id, ?_, ?_, ?_, ?_⟩
  · simp only [lineSize, hs]
    rfl
  · simp [hname]
  · intro n hn
    obtain rfl : name = n := by simpa [hname] using hn
    exact ⟨v, by simpa only [Line.labelValue, hs] using hv, hg⟩
  · simp [Line.addressLabel?, Line.isDefinition, hs, hlabels]
  · intro e' he'
    obtain rfl : e = e' := by simpa [hs] using he'
    exact ⟨v, hv, checkRange_eq_ok_iff.mp hr⟩

theorem placeSized_step {origin : UInt16} {l l' : Layout} {line : Line} {size : Nat}
    (hs : ∀ e, line.statement ≠ some (.define e)) (hsize : lineSize l.symbols line = .ok size)
    (h : l.placeSized origin line size = .ok l') : Step origin l line size l' := by
  obtain ⟨lines, symbols, finish⟩ := l
  obtain ⟨h₁, h⟩ := guard_eq_ok_iff.mp h
  obtain ⟨h₂, h⟩ := guard_eq_ok_iff.mp h
  have hf : finish + size ≤ 0x10000 := by omega
  have hl : finish + size ≤ origin.toNat + 0xFFFF := by omega
  have hd : line.isDefinition = false := by
    rw [Bool.eq_false_iff, ne_eq, Line.isDefinition_iff]
    exact fun ⟨e, he⟩ => hs e he
  have hv : line.labelValue symbols.value? (UInt16.ofNat finish) =
      .ok (UInt16.ofNat finish).toNat := by
    unfold Line.labelValue
    split
    · next e he => exact (hs e he).elim
    · rfl
  cases hname : line.label with
  | none =>
      simp only [hname, ok_bind, pure_eq_ok_iff] at h
      subst h
      refine ⟨hsize, rfl, rfl, fun _ => hf, fun _ => hl, fun _ => rfl, ?_, ?_,
        fun e he => (hs e he).elim⟩
      · simp [hname]
      · simp [Line.addressLabel?, hname]
  | some name =>
      simp only [hname, bind_eq_ok_iff, pure_eq_ok_iff] at h
      obtain ⟨t, ht, rfl⟩ := h
      obtain ⟨hg, hlabels⟩ := Symbols.defineLabel_eq_ok ht
      refine ⟨hsize, rfl, rfl, fun _ => hf, fun _ => hl, ?_, ?_, ?_,
        fun e he => (hs e he).elim⟩
      · simp [hname]
      · intro n hn
        obtain rfl : name = n := by simpa [hname] using hn
        exact ⟨_, hv, hg⟩
      · simp [Line.addressLabel?, hd, hname, hlabels]

theorem place_step {origin : UInt16} {l l' : Layout} {line : Line}
    (hl : line.isDefinition → line.label.isSome) (h : l.place origin line = .ok l') :
    ∃ size, Step origin l line size l' := by
  unfold place at h
  split at h
  · next e hs => exact ⟨0, placeDefinition_step hs (hl (Line.isDefinition_iff.mpr ⟨e, hs⟩)) h⟩
  · next s hne hs =>
    obtain ⟨size, hsize, h⟩ := bind_eq_ok_iff.mp h
    refine ⟨size, placeSized_step ?_ (by simpa only [lineSize, hs] using hsize) h⟩
    intro e he
    exact hne e (by simpa [hs] using he)
  · next hs => exact ⟨0, placeSized_step (by simp [hs]) (by simp [lineSize, hs]) h⟩

/-- What is true of a layout that lines were placed in. -/
structure Valid (origin : UInt16) (l : Layout) : Prop where
  tiles : Tiles l.symbols origin.toNat l.lines.toList l.finish
  finish_le : l.finish ≤ 0x10000
  length_le : l.finish ≤ origin.toNat + 0xFFFF
  names : ((l.lines.toList.filterMap (·.line.label)).map foldCase).Nodup
  labels_eq : l.symbols.labels.toList = l.lines.toList.filterMap fun p =>
    p.line.addressLabel?.map fun name => (name, p.address)
  /-- A line's label stands for what the line gives it. -/
  labelled : ∀ p ∈ l.lines.toList, ∀ name, p.line.label = some name →
    ∃ v, p.line.labelValue l.symbols.value? p.address = .ok v ∧ l.symbols.value? name = some v
  /-- No name stands for anything else. -/
  defined : ∀ name v, l.symbols.value? name = some v →
    ∃ p ∈ l.lines.toList, p.line.Defines l.symbols.value? p.address name v
  values : ∀ p ∈ l.lines.toList, ∀ e, p.line.statement = some (.define e) →
    ∃ v, e.value l.symbols.value? = .ok v ∧ -32768 ≤ v ∧ v ≤ 0xFFFF

theorem valid_start (origin : UInt16) : (start origin).Valid origin := by
  have := origin.toNat_lt
  refine ⟨.nil _, ?_, ?_, ?_, rfl, ?_, ?_, ?_⟩
  · simp only [start]
    omega
  · simp only [start]
    omega
  · simp [start]
  · simp [start]
  · simp [start]
  · simp [start]

namespace Step
variable {origin : UInt16} {l l' : Layout} {line : Line} {size : Nat}

theorem extension (h : Step origin l line size l') : l.symbols.Extends l'.symbols := by
  cases hl : line.label with
  | none =>
      rw [h.unlabelled hl]
      exact Symbols.Extends.refl _
  | some name =>
      obtain ⟨v, -, hg⟩ := h.labelled name hl
      exact hg.extension

theorem toList_eq (h : Step origin l line size l') :
    l'.lines.toList = l.lines.toList ++ [{ line, address := UInt16.ofNat l.finish }] := by
  rw [h.lines_eq, Array.toList_push]

/-- A label is new, so no line before has it. -/
theorem names (h : Step origin l line size l') (hv : l.Valid origin) :
    ((l'.lines.toList.filterMap (·.line.label)).map foldCase).Nodup := by
  rw [h.toList_eq, List.filterMap_append, List.map_append, List.nodup_append]
  refine ⟨hv.names, ?_, ?_⟩
  · cases hl : line.label <;> simp [hl]
  · intro a ha b hb hab
    obtain ⟨name, hname, rfl⟩ := List.mem_map.mp ha
    obtain ⟨p, hp, hpl⟩ := List.mem_filterMap.mp hname
    obtain ⟨name', hname', rfl⟩ := List.mem_map.mp hb
    have hl : line.label = some name' := by simpa using hname'
    obtain ⟨v, -, hg⟩ := h.labelled name' hl
    obtain ⟨w, -, hw⟩ := hv.labelled p hp name hpl
    rw [l.symbols.value?_congr hab, hg.fresh] at hw
    cases hw

theorem valid (h : Step origin l line size l') (hv : l.Valid origin) : l'.Valid origin := by
  have hx := h.extension
  refine ⟨?_, h.finish_le hv.finish_le, h.length_le hv.length_le, h.names hv, ?_, ?_, ?_, ?_⟩
  · rw [h.toList_eq, h.finish_eq]
    exact (hv.tiles.mono hx).snoc (lineSize_mono hx h.size_eq) rfl
  · rw [h.labels_eq, h.toList_eq, List.filterMap_append, hv.labels_eq]
    cases ha : line.addressLabel? <;> simp [ha]
  · intro p hp name hname
    rw [h.toList_eq, List.mem_append, List.mem_singleton] at hp
    rcases hp with hp | rfl
    · obtain ⟨v, h₁, h₂⟩ := hv.labelled p hp name hname
      exact ⟨v, labelValue_mono hx h₁, hx _ _ h₂⟩
    · obtain ⟨v, h₁, hg⟩ := h.labelled name hname
      exact ⟨v, labelValue_mono hx h₁, hg.self⟩
  · intro name v hname
    -- A name that the line does not define was defined before, by a line that is still there.
    have old : l.symbols.value? name = some v →
        ∃ p ∈ l'.lines.toList, p.line.Defines l'.symbols.value? p.address name v := by
      intro h₁
      obtain ⟨p, hp, label, h₂, h₃, h₄⟩ := hv.defined name v h₁
      refine ⟨p, ?_, label, h₂, h₃, labelValue_mono hx h₄⟩
      rw [h.toList_eq]
      exact List.mem_append_left _ hp
    cases hl : line.label with
    | none =>
        rw [h.unlabelled hl] at hname
        exact old hname
    | some label =>
        obtain ⟨w, hw, hg⟩ := h.labelled label hl
        rw [hg.value] at hname
        split_ifs at hname with hk
        · cases hname
          refine ⟨{ line, address := UInt16.ofNat l.finish }, ?_, label, hl, hk,
            labelValue_mono hx hw⟩
          rw [h.toList_eq]
          exact List.mem_append_right _ (List.mem_singleton_self _)
        · exact old hname
  · intro p hp e he
    rw [h.toList_eq, List.mem_append, List.mem_singleton] at hp
    rcases hp with hp | rfl
    · obtain ⟨v, h₁, h₂⟩ := hv.values p hp e he
      exact ⟨v, value_mono hx h₁, h₂⟩
    · obtain ⟨v, h₁, h₂⟩ := h.value e he
      exact ⟨v, value_mono hx h₁, h₂⟩

end Step

/-- Two layouts that look the same, and a line each that look the same when they are read, look the
same at the end if the lines behind come to the same. -/
theorem placeAll_cons_congr {ε δ γ : Type} {origin : UInt16} {n n' : Nat} {l l' : Layout}
    {s t : String} {ss ts : List String} {e e' : SourceError → ε} {c c' : Cause → δ}
    {f f' : Line → Line} {h h' : Layout → γ}
    (hparse : mapBoth e f (Line.parse n s) = mapBoth e' f' (Line.parse n' t))
    (hplace : ∀ line line', f line = f' line' →
      mapBoth c h (l.place origin line) = mapBoth c' h' (l'.place origin line'))
    (hlast : ∀ line line', f line = f' line' → isLast line = isLast line')
    (herror : ∀ a b, c a = c' b → e { line := n, cause := a } = e' { line := n', cause := b })
    (hrest : ∀ line next next', Line.parse n' t = .ok line → l'.place origin line = .ok next' →
      h next = h' next' → mapBoth e h (placeAll origin (n + 1) next ss) =
        mapBoth e' h' (placeAll origin (n' + 1) next' ts)) :
    mapBoth e h (placeAll origin n l (s :: ss)) =
      mapBoth e' h' (placeAll origin n' l' (t :: ts)) := by
  unfold placeAll
  rcases mapBoth_eq_cases hparse with
    ⟨line, line', hline, hline', hsame⟩ | ⟨a, b, hline, hline', hrefused⟩
  · rw [hline, hline', ok_bind, ok_bind]
    rcases mapBoth_eq_cases (hplace line line' hsame) with
      ⟨next, next', hnext, hnext', hmore⟩ | ⟨a, b, hnext, hnext', hcause⟩
    · simp only [hnext, hnext', hlast line line' hsame]
      split_ifs
      · exact congrArg Except.ok hmore
      · exact hrest line' next next' hline' hnext' hmore
    · simp only [hnext, hnext']
      exact congrArg Except.error (herror a b hcause)
  · rw [hline, hline']
    exact congrArg Except.error hrefused

/-- The lines of a source up to the first that ends it. -/
def readLines (number : Nat) : List String → Except SourceError (List Line)
  | [] => .ok []
  | text :: texts => do
    let line ← Line.parse number text
    if isLast line then return [line] else return line :: (← readLines (number + 1) texts)

/-- Reads the lines of a source from `number` on and takes a step with each, up to the first that
ends the source. -/
def walk {σ : Type} (step : σ → Line → Except Cause σ) (number : Nat) (s : σ) :
    List String → Except SourceError σ
  | [] => .ok s
  | text :: texts => do
    let line ← Line.parse number text
    match step s line with
    | .error cause => throw { line := number, cause }
    | .ok next => if isLast line then return next else walk step (number + 1) next texts

/-- Each line is read before the step with it, but it would be the same to read them all first. -/
theorem walk_eq_ok_iff {σ : Type} {step : σ → Line → Except Cause σ} {number : Nat} {s s' : σ}
    {texts : List String} :
    walk step number s texts = .ok s' ↔
      ∃ lines, readLines number texts = .ok lines ∧ lines.foldlM step s = .ok s' := by
  induction texts generalizing number s with
  | nil => simp [walk, readLines, pure, Except.pure]
  | cons text texts ih =>
      simp only [walk, readLines, bind_eq_ok_iff]
      constructor
      · rintro ⟨line, hline, h⟩
        split at h
        · cases h
        · next next hnext =>
          split_ifs at h with hlast
          · cases h
            exact ⟨[line], ⟨line, hline, by rw [if_pos hlast]; rfl⟩, by simpa using hnext⟩
          · obtain ⟨lines, hlines, h⟩ := ih.mp h
            refine ⟨line :: lines, ⟨line, hline, ?_⟩, ?_⟩
            · rw [if_neg hlast]
              exact bind_eq_ok_iff.mpr ⟨lines, hlines, rfl⟩
            · rw [List.foldlM_cons]
              exact bind_eq_ok_iff.mpr ⟨next, hnext, h⟩
      · rintro ⟨lines, ⟨line, hline, hlines⟩, h⟩
        refine ⟨line, hline, ?_⟩
        split_ifs at hlines with hlast
        · cases hlines
          obtain ⟨next, hnext, h⟩ := bind_eq_ok_iff.mp h
          cases h
          simp only [hnext, if_pos hlast]
          rfl
        · obtain ⟨rest, hrest, hlines⟩ := bind_eq_ok_iff.mp hlines
          cases hlines
          rw [List.foldlM_cons, bind_eq_ok_iff] at h
          obtain ⟨next, hnext, h⟩ := h
          simp only [hnext, if_neg hlast]
          exact ih.mpr ⟨rest, hrest, h⟩

theorem placeAll_eq_walk (origin : UInt16) (number : Nat) (l : Layout) (texts : List String) :
    placeAll origin number l texts = walk (place origin) number l texts := by
  induction texts generalizing number l with
  | nil => rfl
  | cons text texts ih =>
      rw [placeAll, walk]
      congr 1
      funext line
      cases l.place origin line with
      | error cause => rfl
      | ok next => simp only [ih]

theorem placeAll_eq_ok_iff {origin : UInt16} {number : Nat} {l l' : Layout} {texts : List String} :
    placeAll origin number l texts = .ok l' ↔
      ∃ lines, readLines number texts = .ok lines ∧ lines.foldlM (place origin) l = .ok l' := by
  rw [placeAll_eq_walk, walk_eq_ok_iff]

theorem foldlM_place_valid {origin : UInt16} {lines : List Line} {l l' : Layout}
    (hl : ∀ line ∈ lines, line.isDefinition → line.label.isSome) (hv : l.Valid origin)
    (h : lines.foldlM (place origin) l = .ok l') :
    l'.Valid origin ∧ l'.lines.toList.map (·.line) = l.lines.toList.map (·.line) ++ lines := by
  induction lines generalizing l with
  | nil =>
      cases h
      exact ⟨hv, by simp⟩
  | cons line lines ih =>
      rw [List.foldlM_cons, bind_eq_ok_iff] at h
      obtain ⟨next, hnext, h⟩ := h
      obtain ⟨size, hstep⟩ := place_step (hl line List.mem_cons_self) hnext
      obtain ⟨h₁, h₂⟩ := ih (fun x hx => hl x (List.mem_cons_of_mem _ hx)) (hstep.valid hv) h
      refine ⟨h₁, ?_⟩
      rw [h₂, hstep.toList_eq]
      simp

end Layout

end Assembly

end B33
