import B33.Yaml
import B33.Yaml.Octets
import B33.Yaml.Token

/-!
# Reading YAML

A document is the value that its tokens describe. Where a token of a value is missing, nothing is
written. A text holds one document.

The functions that read nested values answer with the value and with the tokens behind it, unless the
value is broken off. They take two bounds: on the depth of the value, and on the number of calls.
Every third call at the latest takes a token, so three times their number is enough.
-/

namespace B33.Yaml

def depthLimit : Nat := 128

/-- A value and the tokens behind it, if it is not broken off. -/
abbrev Parsed := Yaml × Option (List (Token × Mark))

/-- The value that is broken off where a token stands that does not fit. What was being read began at
a mark. -/
def unfit (fault : FormFault) (start : Option Mark) : List (Token × Mark) → Parsed
  | [] => (broken (.form fault {} {}), none)
  | (.error e, _) :: _ => (broken e, none)
  | (_, m) :: _ => (broken (.form fault m (start.getD m)), none)

/-- Whether one of some tokens stands here. Where a value should begin it is then not written, since
what comes after it begins. -/
def begins (tokens : List Token) : List (Token × Mark) → Bool
  | (t, _) :: _ => tokens.contains t
  | [] => false

def markOfTokens : List (Token × Mark) → Mark
  | (_, m) :: _ => m
  | [] => {}

/-- A pair whose value is not written, unless it is not known whether it is. -/
def withoutValue (key : Yaml) : List (Token × Mark) → (Yaml × Yaml) × Option (List (Token × Mark))
  | (.error e, _) :: _ => ((key, broken e), none)
  | ts => ((key, absent (markOfTokens ts)), some ts)

mutual

def value (bound depth : Nat) (inFlow : Bool) (ts : List (Token × Mark)) : Parsed :=
  match bound, ts with
  | bound + 1, (t, m) :: ts =>
    match t with
    | .scalar quoted text => (scalar m quoted text, some ts)
    | .opening .square => flowItems bound depth m [] ts
    | .opening .curly => flowPairs bound depth m [] ts
    | .items => blockItems bound depth m false [] ts
    | .pairs => blockPairs bound depth m [] ts
    | t => unfit (.noValue inFlow) none ((t, m) :: ts)
  | _, ts => unfit (.noValue inFlow) none ts

/-- The items of a sequence at a column, after those already read, which stand last one first. In a
mapping a sequence can be `loose`: it stands at the column of the mapping, and only what comes after
it shows that it has ended. -/
def blockItems (bound depth : Nat) (start : Mark) (loose : Bool) (items : List Yaml)
    (ts : List (Token × Mark)) : Parsed :=
  match bound, depth with
  | 0, _ => unfit .noItem start ts
  | _, 0 => (broken (.tooDeep start), none)
  | bound + 1, depth + 1 =>
    match ts with
    | (.item, m) :: ts =>
      let after := if loose then [.item, .finish, .key, .value] else [.item, .finish]
      match if begins after ts then (absent m.next, some ts) else value bound depth false ts with
      | (item, some ts) => blockItems bound (depth + 1) start loose (item :: items) ts
      | (item, none) => (sequence start (item :: items).reverse, none)
    | (.finish, m) :: ts =>
      (sequence start items.reverse, some (if loose then (.finish, m) :: ts else ts))
    | (.error e, _) :: _ => (sequence start (broken e :: items).reverse, none)
    | ts =>
      if loose then (sequence start items.reverse, some ts)
      else (sequence start ((unfit .noItem start ts).1 :: items).reverse, none)

/-- The pairs of a mapping at a column, after those already read, which stand last one first. -/
def blockPairs (bound depth : Nat) (start : Mark) (pairs : List (Yaml × Yaml))
    (ts : List (Token × Mark)) : Parsed :=
  match bound, depth with
  | 0, _ => unfit .noKey start ts
  | _, 0 => (broken (.tooDeep start), none)
  | bound + 1, depth + 1 =>
    match ts with
    | (.key, m) :: ts =>
      match blockPart bound depth m.next ts with
      | (key, some ts) =>
        match blockValue bound depth ts with
        | (value, some ts) => blockPairs bound (depth + 1) start ((key, value) :: pairs) ts
        | (value, none) => (mapping start ((key, value) :: pairs).reverse, none)
      | (key, none) => (mapping start ((key, absent m.next) :: pairs).reverse, none)
    | (.finish, _) :: ts => (mapping start pairs.reverse, some ts)
    | ts =>
      (mapping start (((unfit .noKey start ts).1, absent start) :: pairs).reverse, none)

def blockValue (bound depth : Nat) (ts : List (Token × Mark)) : Parsed :=
  match bound, ts with
  | bound + 1, (.value, m) :: ts => blockPart bound depth m.next ts
  | _, (.error e, _) :: _ => (broken e, none)
  | _, (t, m) :: ts => (absent m, some ((t, m) :: ts))
  | _, [] => (absent {}, some [])

/-- The key or the value of a pair. If it is not written, nothing stands at a mark. -/
def blockPart (bound depth : Nat) (m : Mark) (ts : List (Token × Mark)) : Parsed :=
  match bound, ts with
  | 0, ts => unfit (.noValue false) none ts
  | bound + 1, (.item, start) :: ts => blockItems bound depth start true [] ((.item, start) :: ts)
  | bound + 1, ts =>
    if begins [.key, .value, .finish] ts then (absent m, some ts) else value bound depth false ts

/-- The items of a sequence in brackets, after those already read, which stand last one first. An item
can be a mapping of one pair without brackets of its own. -/
def flowItems (bound depth : Nat) (start : Mark) (items : List Yaml) (ts : List (Token × Mark)) :
    Parsed :=
  match bound, depth with
  | 0, _ => unfit .openSequence start ts
  | _, 0 => (broken (.tooDeep start), none)
  | bound + 1, depth + 1 =>
    match ts with
    | (.closing .square, _) :: ts => (sequence start items.reverse, some ts)
    | ts =>
      match flowItem bound depth ts with
      | (item, some ((.comma, _) :: ts)) => flowItems bound (depth + 1) start (item :: items) ts
      | (item, some ((.closing .square, _) :: ts)) =>
        (sequence start (item :: items).reverse, some ts)
      | (item, some ts) =>
        (sequence start ((unfit .openSequence start ts).1 :: item :: items).reverse, none)
      | (item, none) => (sequence start (item :: items).reverse, none)

def flowItem (bound depth : Nat) (ts : List (Token × Mark)) : Parsed :=
  match bound, depth, ts with
  | _ + 1, 0, (.key, m) :: _ => (broken (.tooDeep m), none)
  | bound + 1, depth + 1, (.key, m) :: ts =>
    match flowPair bound depth .square ((.key, m) :: ts) with
    | (pair, rest) => (mapping m [pair], rest)
  | bound + 1, depth, ts => value bound depth true ts
  | 0, _, ts => unfit (.noValue true) none ts

/-- The pairs of a mapping in brackets, after those already read, which stand last one first. -/
def flowPairs (bound depth : Nat) (start : Mark) (pairs : List (Yaml × Yaml))
    (ts : List (Token × Mark)) : Parsed :=
  match bound, depth with
  | 0, _ => unfit .openMapping start ts
  | _, 0 => (broken (.tooDeep start), none)
  | bound + 1, depth + 1 =>
    match ts with
    | (.closing .curly, _) :: ts => (mapping start pairs.reverse, some ts)
    | ts =>
      match flowPair bound depth .curly ts with
      | (pair, some ((.comma, _) :: ts)) => flowPairs bound (depth + 1) start (pair :: pairs) ts
      | (pair, some ((.closing .curly, _) :: ts)) =>
        (mapping start (pair :: pairs).reverse, some ts)
      | (pair, some ts) =>
        (mapping start (((unfit .openMapping start ts).1, absent start) :: pair :: pairs).reverse,
          none)
      | (pair, none) => (mapping start (pair :: pairs).reverse, none)

/-- A pair in brackets of a kind. A value that is no key stands for a pair without a value. -/
def flowPair (bound depth : Nat) (b : Bracket) (ts : List (Token × Mark)) :
    (Yaml × Yaml) × Option (List (Token × Mark)) :=
  match bound, ts with
  | 0, ts => (((unfit (.noValue true) none ts).1, absent {}), none)
  | bound + 1, (.key, m) :: ts =>
    match flowKey bound depth b ts with
    | (key, some ((.value, _) :: ts)) =>
      match flowValue bound depth b ts with
      | (value, rest) => ((key, value), rest)
    | (key, some ts) => withoutValue key ts
    | (key, none) => ((key, absent m), none)
  | bound + 1, ts =>
    match value bound depth true ts with
    | (key, some ts) => withoutValue key ts
    | (key, none) => ((key, absent {}), none)

/-- The key of a pair in brackets of a kind. In square brackets the token behind a key that is not
written counts as a part of the key. -/
def flowKey (bound depth : Nat) (b : Bracket) (ts : List (Token × Mark)) : Parsed :=
  match bound with
  | 0 => unfit (.noValue true) none ts
  | bound + 1 =>
    if begins [.value, .comma, .closing b] ts then
      match b with
      | .square => (absent (markOfTokens ts).next, some (ts.drop 1))
      | .curly => (absent (markOfTokens ts), some ts)
    else value bound depth true ts

def flowValue (bound depth : Nat) (b : Bracket) (ts : List (Token × Mark)) : Parsed :=
  match bound with
  | 0 => unfit (.noValue true) none ts
  | bound + 1 =>
    if begins [.comma, .closing b] ts then (absent (markOfTokens ts), some ts)
    else value bound depth true ts

end

/-- What is wrong after the value of a document, if anything is. Marks that end it can follow, and
then nothing else. -/
def errorAfter? : List (Token × Mark) → Option YamlError
  | (.error e, _) :: _ => some e
  | ts =>
    match ts.dropWhile (·.1 == .documentEnd) with
    | [(.textEnd, _)] => none
    | _ => some .severalDocuments

/-- The value of a document and the tokens behind it. A document can begin with a mark, behind which
nothing need be written. -/
def document (ts : List (Token × Mark)) : Parsed :=
  let bound := 3 * ts.length + 10
  match ts with
  | (.documentStart, _) :: ts =>
    match ts with
    | (.documentStart, m) :: _ | (.documentEnd, m) :: _ | (.textEnd, m) :: _ => (absent m, some ts)
    | ts => value bound depthLimit false ts
  | (.textEnd, m) :: ts => (absent m, some ((.textEnd, m) :: ts))
  | ts => value bound depthLimit false ts

/-- Reads a text of one value, and says what is wrong behind the value, if anything is. A text of
nothing but comments is read as the absent value. -/
def read (octets : List UInt8) : Yaml × Option YamlError :=
  match decode octets with
  | .error e => (broken e, none)
  | .ok text =>
    match document (tokens text) with
    | (y, none) => (y, none)
    | (y, some rest) => (y, errorAfter? rest)

end B33.Yaml
