import B33.Yaml.Cell

/-!
# Scalars in YAML text

A scalar stands in single quotes, in double quotes, or plainly without any. It can go on over several
lines, and what separates its words is then folded: the gaps around a line end are left out, a
single line feed becomes a blank, and of several line ends a line feed at the front is left out.

The functions that read a scalar are told where it starts and where the text ends, for their errors.
-/

namespace B33.Yaml

def folded (white : List Char) : List Char :=
  match white.filter isBreak with
  | [] => white
  | ['\n'] => [' ']
  | '\n' :: further => further
  | breaks => breaks

def escaped? : Char → Option Char
  | '0' => some '\x00'
  | 'a' => some '\x07'
  | 'b' => some '\x08'
  | 't' | '\t' => some '\t'
  | 'n' => some '\n'
  | 'v' => some '\x0b'
  | 'f' => some '\x0c'
  | 'r' => some '\r'
  | 'e' => some '\x1b'
  | ' ' => some ' '
  | '"' => some '"'
  | '/' => some '/'
  | '\\' => some '\\'
  | 'N' => some '\u0085'
  | '_' => some '\u00a0'
  | 'L' => some '\u2028'
  | 'P' => some '\u2029'
  | _ => none

def escapeWidth? : Char → Option Nat
  | 'x' => some 2
  | 'u' => some 4
  | 'U' => some 8
  | _ => none

/-- The character that a number written in hexadecimal stands for, and the text after it. -/
def takeHexadecimal (start finish : Mark) (width : Nat) (cs : List Cell) :
    Except YamlError (Char × List Cell) :=
  let digits := (cs.take width).map (·.char)
  match if digits.length < width then none else Numeral.value? 16 digits with
  | none => .error (.form .noHexadecimal (markOf finish cs) start)
  | some n =>
    if n.isValidChar then .ok (Char.ofNat n, cs.drop width)
    else .error (.form .noCharacter (markOf finish cs) start)

/-- The character that an escape stands for, after its backslash, and the text after it. -/
def takeEscape (start finish backslash : Mark) : List Cell → Except YamlError (Char × List Cell)
  | [] => .error (.form .unknownEscape backslash start)
  | c :: cs =>
    match escaped? c.char, escapeWidth? c.char with
    | some d, _ => .ok (d, cs)
    | none, some width => takeHexadecimal start finish width cs
    | none, none => .error (.form .unknownEscape backslash start)

theorem length_takeEscape_lt {start finish backslash : Mark} {cs rest : List Cell} {d : Char}
    (h : takeEscape start finish backslash cs = .ok (d, rest)) : rest.length < cs.length := by
  cases cs with
  | nil => simp [takeEscape] at h
  | cons c cs =>
    simp only [takeEscape] at h
    split at h
    · simp only [Except.ok.injEq, Prod.mk.injEq] at h
      simp [← h.2]
    · simp only [takeHexadecimal] at h
      split at h
      · simp at h
      · split at h
        · simp only [Except.ok.injEq, Prod.mk.injEq] at h
          simp only [← h.2, List.length_drop, List.length_cons]
          omega
        · simp at h
    · simp at h

/-- A text that is being read: its characters, and what separates the last of them from what
follows. Both stand last one first. -/
structure Draft where
  taken : List Char := []
  white : List Char := []
  /-- Whether the line end before the white has been escaped, which leaves out only the gaps behind
  it. -/
  joined : Bool := false

namespace Draft

def text (p : Draft) : String := String.ofList p.taken.reverse

def addWhite (p : Draft) (c : Char) : Draft := { p with white := c :: p.white }

def settle (p : Draft) : Draft where
  taken :=
    if p.joined then p.white.filter isBreak ++ p.taken
    else (folded p.white.reverse).reverse ++ p.taken

def add (p : Draft) (c : Char) : Draft := { p.settle with taken := c :: p.settle.taken }

/-- The text after an escaped line end. -/
def join (p : Draft) : Draft := { p.settle with joined := true }

end Draft

/-- The rest of a scalar between single quotes, in which two quotes stand for one. -/
def takeSingle (start finish : Mark) (p : Draft) :
    List Cell → Except YamlError (String × List Cell)
  | [] => .error (.form .openQuotes finish start)
  | c :: cs =>
    if isWhite c.char then takeSingle start finish (p.addWhite c.char) cs
    else if isDocumentMark (c :: cs) then .error (.form .markInQuotes c.toMark start)
    else if c.char ≠ '\'' then takeSingle start finish (p.add c.char) cs
    else
      match cs with
      | ⟨_, '\''⟩ :: rest => takeSingle start finish (p.add '\'') rest
      | _ => .ok (p.settle.text, cs)

/-- The rest of a scalar between double quotes, in which a backslash begins an escape. -/
def takeDouble (start finish : Mark) (p : Draft) :
    List Cell → Except YamlError (String × List Cell)
  | [] => .error (.form .openQuotes finish start)
  | c :: cs =>
    if isWhite c.char then takeDouble start finish (p.addWhite c.char) cs
    else if isDocumentMark (c :: cs) then .error (.form .markInQuotes c.toMark start)
    else if c.char = '"' then .ok (p.settle.text, cs)
    else if c.char ≠ '\\' then takeDouble start finish (p.add c.char) cs
    else if (cs.head?.map (isBreak ·.char)).getD false then
      takeDouble start finish p.join (cs.drop 1)
    else
      match h : takeEscape start finish c.toMark cs with
      | .error e => .error e
      | .ok (d, rest) =>
        have := length_takeEscape_lt h
        takeDouble start finish (p.add d) rest
termination_by cs => cs.length
decreasing_by
  all_goals simp only [List.length_drop, List.length_cons]
  all_goals omega

def startsPlain (flow : Bool) : List Cell → Bool
  | [] => false
  | c :: cs =>
    if c.char == '-' then !isSeparated cs
    else if c.char == '?' || c.char == ':' then !flow && !isSeparated cs
    else !isWhite c.char && !isIndicator c.char

/-- Whether a colon stands here right before a mark of brackets or a question mark. Inside brackets
none can. -/
def isBareColon : List Cell → Bool
  | colon :: mark :: _ => colon.char == ':' && (isFlowMark mark.char || mark.char == '?')
  | _ => false

/-- Whether a scalar without quotes ends here, right after a character of it. -/
def endsPlain (flow : Bool) : List Cell → Bool
  | [] => true
  | c :: cs => (c.char == ':' && isSeparated cs) || (flow && isFlowMark c.char)

/-- Whether a scalar without quotes ends here, after something that separates. Outside brackets its
further lines stand at or right of a column. -/
def endsLine (flow : Bool) (least : Nat) (cs : List Cell) : Bool :=
  match cs with
  | [] => true
  | c :: _ => (!flow && c.column < least) || c.char == '#' || isDocumentMark cs

/-- The rest of a scalar without quotes, and whether a line end stands between it and the text after
it. No tab can stand left of the column of its further lines. -/
def takePlain (start : Mark) (flow : Bool) (least : Nat) (p : Draft) :
    List Cell → Except YamlError (String × Bool × List Cell)
  | [] => .ok (p.text, p.white.any isBreak, [])
  | c :: cs =>
    if isWhite c.char then
      if c.char = '\t' && c.column < least && p.white.any isBreak then
        .error (.form .tabIndentation c.toMark start)
      else takePlain start flow least (p.addWhite c.char) cs
    else if !p.white.isEmpty && endsLine flow least (c :: cs) then
      .ok (p.text, p.white.any isBreak, c :: cs)
    else if flow && isBareColon (c :: cs) then .error (.form .bareColon c.toMark start)
    else if endsPlain flow (c :: cs) then .ok (p.text, p.white.any isBreak, c :: cs)
    else takePlain start flow least (p.add c.char) cs

end B33.Yaml
