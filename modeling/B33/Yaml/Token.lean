import B33.Yaml.Scalar

/-!
# Tokens of YAML text

The tokens say where scalars, brackets and marks stand, and where indentation begins and ends a
sequence or a mapping. Whether a value is a key shows only at the colon after it. So its place is kept
until then, and the token of the key is put in front of it afterwards.

A token is there once nothing can be put in front of it any more, and the last token says why there
are no further ones: the text ends, or it is wrong. So what stands before an error can be used.

There are no tokens of anchors, aliases, tags, directives and block scalars: a text with one of them
is refused.
-/

namespace B33.Yaml

inductive Bracket where
  | square | curly
  deriving DecidableEq, Repr

inductive Token where
  | documentStart
  | documentEnd
  | scalar (quoted : Bool) (text : String)
  | opening (b : Bracket)
  | closing (b : Bracket)
  | comma
  /-- Items at a common column begin. -/
  | items
  /-- Pairs at a common column begin. -/
  | pairs
  /-- Items or pairs at a common column end. -/
  | finish
  | item
  | key
  | value
  | textEnd
  | error (e : YamlError)
  deriving DecidableEq, Repr

/-- A place where a key may have begun. -/
structure KeyPlace where
  mark : Mark
  index : Nat
  /-- Whether nothing but a key can stand there, since other keys or items stand at its column. -/
  required : Bool
  deriving DecidableEq, Repr

namespace KeyPlace

/-- How far a colon can be from the start of its key. -/
def reach : Nat := 1024

/-- Whether a colon at a mark would be on another line than the key, or too far away. -/
def isStale (m : Mark) (k : KeyPlace) : Bool :=
  k.mark.line < m.line || k.mark.column + reach < m.column

end KeyPlace

structure Reading where
  tokens : List (Token × Mark) := []
  count : Nat := 0
  /-- The columns of the items and pairs that have not ended, the innermost first. -/
  columns : List Nat := []
  /-- The last place outside brackets of a key that can still turn out to be one. -/
  blockKey : Option KeyPlace := none
  /-- The same of the text in each open bracket, the innermost first. No such key is required. -/
  flowKeys : List (Option KeyPlace) := []
  keyAllowed : Bool := true

namespace Reading

/-- Whether the text is inside brackets. Indentation means nothing there. -/
def inFlow (s : Reading) : Bool := !s.flowKeys.isEmpty

def push (t : Token) (m : Mark) (s : Reading) : Reading :=
  { s with tokens := (t, m) :: s.tokens, count := s.count + 1 }

def insert (index : Nat) (t : Token) (m : Mark) (s : Reading) : Reading :=
  let after := s.count - index
  { s with
    tokens := s.tokens.take after ++ (t, m) :: s.tokens.drop after
    count := s.count + 1 }

def allowKey (allowed : Bool) (s : Reading) : Reading := { s with keyAllowed := allowed }

/-- Ends what stands at or right of a column. -/
def dedent (column : Nat) (m : Mark) (s : Reading) : Reading :=
  if s.inFlow then s
  else
    let ended := s.columns.takeWhile (column ≤ ·)
    let s := { s with columns := s.columns.drop ended.length }
    ended.foldl (fun s _ => s.push .finish m) s

/-- Begins items or pairs at a mark, unless the ones at its column have begun already. Their token
goes in front of the token at an index. -/
def indent (m : Mark) (index : Nat) (t : Token) (s : Reading) : Reading :=
  if s.inFlow || s.columns.head?.any (m.column ≤ ·) then s
  else { s with columns := m.column :: s.columns }.insert index t m

/-- The column at or right of which the lines of a scalar without quotes stand. -/
def least (s : Reading) : Nat :=
  match s.columns with
  | [] => 0
  | column :: _ => column + 1

def keyPlace (s : Reading) : Option KeyPlace :=
  match s.flowKeys with
  | [] => s.blockKey
  | k :: _ => k

def setKeyPlace (k : Option KeyPlace) (s : Reading) : Reading :=
  match s.flowKeys with
  | [] => { s with blockKey := k }
  | _ :: ks => { s with flowKeys := k :: ks }

/-- Notes that the text goes on at a mark. What is stale there is no place of a key any more, which
is an error if a key is required. Of the keys in brackets only the innermost matters now. -/
def expire (m : Mark) (s : Reading) : Except YamlError Reading :=
  match s.blockKey.filter fun k => k.required && k.isStale m with
  | some k => .error (.form .noColon m k.mark)
  | none =>
    .ok { s with
      blockKey := s.blockKey.filter (!KeyPlace.isStale m ·)
      flowKeys := match s.flowKeys with
        | [] => []
        | k :: ks => k.filter (!KeyPlace.isStale m ·) :: ks }

/-- The number of tokens in front of which nothing can be put any more, once the text goes on at a
mark. -/
def settled (m : Mark) (s : Reading) : Nat :=
  ((s.blockKey :: s.flowKeys).filterMap fun k => k.filter (!KeyPlace.isStale m ·)).foldl
    (fun n k => min n k.index) s.count

def advance (m : Mark) (s : Reading) : Except YamlError Reading := do
  return (← s.expire m).dedent (m.column + 1) m

/-- Gives up the last place of a key, which is an error if the key is required. -/
def forgetKey (m : Mark) (s : Reading) : Except YamlError Reading :=
  match s.keyPlace with
  | some k => if k.required then .error (.form .noColon m k.mark) else .ok (s.setKeyPlace none)
  | none => .ok s

def noteKey (m : Mark) (s : Reading) : Except YamlError Reading :=
  if s.keyAllowed then do
    let s ← s.forgetKey m
    let required := !s.inFlow && s.columns.head? == some m.column
    return s.setKeyPlace (some { mark := m, index := s.count, required })
  else .ok s

/-- Reads a mark that stands where a key could, outside brackets, and begins items or pairs. -/
def takeBlockMark (m : Mark) (t : Token) (fault : FormFault) (s : Reading) :
    Except YamlError Reading :=
  if s.inFlow then .ok s
  else if s.keyAllowed then .ok (s.indent m s.count t)
  else .error (.form fault m m)

def takeItem (m : Mark) (s : Reading) : Except YamlError Reading := do
  let s ← (← s.takeBlockMark m .items .itemNotAllowed).forgetKey m
  return (s.allowKey true).push .item m

def takeQuestion (m : Mark) (s : Reading) : Except YamlError Reading := do
  let s ← (← s.takeBlockMark m .pairs .keyNotAllowed).forgetKey m
  return (s.allowKey !s.inFlow).push .key m

/-- Reads the colon after a key. If no key stands before it, the key is empty or began with a
question mark. -/
def takeColon (m : Mark) (s : Reading) : Except YamlError Reading :=
  match s.keyPlace with
  | some k =>
    let s := (s.setKeyPlace none).insert k.index .key k.mark
    let s := s.indent k.mark k.index .pairs
    .ok ((s.allowKey false).push .value m)
  | none => do
    let s ← s.takeBlockMark m .pairs .valueNotAllowed
    return (s.allowKey !s.inFlow).push .value m

def takeOpening (m : Mark) (b : Bracket) (s : Reading) : Except YamlError Reading := do
  let s ← s.noteKey m
  return ({ s with flowKeys := none :: s.flowKeys }.allowKey true).push (.opening b) m

def takeClosing (m : Mark) (b : Bracket) (s : Reading) : Except YamlError Reading := do
  let s ← s.forgetKey m
  return ({ s with flowKeys := s.flowKeys.tail }.allowKey false).push (.closing b) m

def takeComma (m : Mark) (s : Reading) : Except YamlError Reading := do
  return ((← s.forgetKey m).allowKey true).push .comma m

/-- Reads the mark that begins or ends a document, and ends all that is not in brackets. -/
def takeDocumentMark (m : Mark) (t : Token) (s : Reading) : Except YamlError Reading := do
  let s ← (s.dedent 0 m).forgetKey m
  return (s.allowKey false).push t m

/-- Reads the token that begins with the first character of a text, and answers with the rest. -/
def takeToken (finish : Mark) (s : Reading) :
    List Cell → Except YamlError (Reading × List Cell)
  | [] => .error (.form .noToken finish finish)
  | c :: cs => do
    let m := c.toMark
    let s ← s.advance m
    if isThrice '-' (c :: cs) then return (← s.takeDocumentMark m .documentStart, cs.drop 2)
    if isThrice '.' (c :: cs) then return (← s.takeDocumentMark m .documentEnd, cs.drop 2)
    match c.char with
    | '[' => return (← s.takeOpening m .square, cs)
    | '\x7b' => return (← s.takeOpening m .curly, cs)
    | ']' => return (← s.takeClosing m .square, cs)
    | '\x7d' => return (← s.takeClosing m .curly, cs)
    | ',' => return (← s.takeComma m, cs)
    | '\'' =>
      let s ← s.noteKey m
      let (text, rest) ← takeSingle m finish {} cs
      return ((s.allowKey false).push (.scalar true text) m, rest)
    | '"' =>
      let s ← s.noteKey m
      let (text, rest) ← takeDouble m finish {} cs
      return ((s.allowKey false).push (.scalar true text) m, rest)
    | char =>
      if char = '-' && isSeparated cs then return (← s.takeItem m, cs)
      if char = '?' && (s.inFlow || isSeparated cs) then return (← s.takeQuestion m, cs)
      if char = ':' && (s.inFlow || isSeparated cs) then return (← s.takeColon m, cs)
      if !startsPlain s.inFlow (c :: cs) then throw (.form .noToken m m)
      let s ← s.noteKey m
      let (text, ended, rest) ← takePlain m s.inFlow s.least {} (c :: cs)
      return ((s.allowKey ended).push (.scalar false text) m, rest)

/-- Skips gaps, line ends and comments. Outside brackets a key can begin on a new line, and where one
can no tab stands before it. A line can begin with a byte order mark, which takes a column. Answers
also with whether a key can begin. -/
def skipTrivia (flow comment allowed : Bool) : List Cell → Bool × List Cell
  | [] => (allowed, [])
  | c :: cs =>
    if isBreak c.char then skipTrivia flow false (allowed || !flow) cs
    else if comment then skipTrivia flow true allowed cs
    else if c.char = '\ufeff' && c.column == 0 then skipTrivia flow false allowed cs
    else if c.char = ' ' || (c.char = '\t' && (flow || !allowed)) then
      skipTrivia flow false allowed cs
    else if c.char = '#' then skipTrivia flow true allowed cs
    else (allowed, c :: cs)

/-- Reads the next token and what separates it from the text before it. At the end of the text
there is none. -/
def takeNext (finish : Mark) (s : Reading) (cs : List Cell) :
    Except YamlError (Reading × Option (List Cell)) := do
  let (allowed, cs) := skipTrivia s.inFlow false s.keyAllowed cs
  let s := s.allowKey allowed
  if cs.isEmpty then
    let s ← s.advance finish
    let s ← (s.dedent 0 finish.nextLine).forgetKey finish.nextLine
    return (← (s.push .textEnd finish.nextLine).expire finish.nextLine, none)
  else
    let (s, rest) ← s.takeToken finish cs
    return (← s.expire (markOf finish rest), some rest)

def takeTokens (finish : Mark) (s : Reading) (cs : List Cell) : Nat → List (Token × Mark)
  | 0 => s.tokens.reverse
  | bound + 1 =>
    match s.takeNext finish cs with
    | .ok (s, some rest) => s.takeTokens finish rest bound
    | .ok (s, none) => s.tokens.reverse
    | .error e =>
      let m := markOf finish cs
      ((.error e, m) :: s.tokens.drop (s.count - s.settled m)).reverse

end Reading

/-- The tokens of a text. Each of them takes a character at least, apart from the last one. -/
def tokens (text : List Char) : List (Token × Mark) :=
  let (cells, finish) := placeFrom [] 0 0 text
  ({} : Reading).takeTokens finish cells (cells.length + 1)

end B33.Yaml
