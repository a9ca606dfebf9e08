import B33.Yaml.Error

/-!
# Octets of YAML text

A text is stored in UTF-8. A character takes one to four octets, the first of which tells how many
follow, and no more than it needs. Control characters cannot be stored. They are written as escapes.
-/

namespace B33.Yaml

def followers? (b : UInt8) : Option Nat :=
  if b &&& 0x80 = 0 then some 0
  else if b &&& 0xE0 = 0xC0 then some 1
  else if b &&& 0xF0 = 0xE0 then some 2
  else if b &&& 0xF8 = 0xF0 then some 3
  else none

/-- The bits that a leading octet contributes, if so many others follow. -/
def leadingBits (b : UInt8) : Nat → Nat
  | 0 => b.toNat
  | 1 => b.toNat % 0x20
  | 2 => b.toNat % 0x10
  | _ => b.toNat % 0x08

def leastOf : Nat → Nat
  | 0 => 0
  | 1 => 0x80
  | 2 => 0x800
  | _ => 0x10000

def isFollower (b : UInt8) : Bool := b &&& 0xC0 = 0x80

def isPrintable (c : Char) : Bool :=
  let n := c.toNat
  n == 0x09 || n == 0x0A || n == 0x0D || (0x20 ≤ n && n ≤ 0x7E) || n == 0x85 ||
    (0xA0 ≤ n && n ≤ 0xFFFD) || 0x10000 ≤ n

/-- The character that a leading octet and its followers stand for, if there are enough of them in
what follows. The octets begin at an offset. -/
def decodeOne (offset : Nat) (b : UInt8) (rest : List UInt8) : Except YamlError (Char × Nat) :=
  match followers? b with
  | none => .error (.octets .notLeading offset)
  | some n =>
    let tail := rest.take n
    if tail.length < n then .error (.octets .incomplete offset)
    else
      match tail.findIdx? (!isFollower ·) with
      | some i => .error (.octets .notTrailing (offset + i + 1))
      | none =>
        let code := tail.foldl (fun code b => code * 0x40 + b.toNat % 0x40) (leadingBits b n)
        if code < leastOf n then .error (.octets .tooMany offset)
        else if !code.isValidChar then .error (.octets .notCharacter offset)
        else if !isPrintable (Char.ofNat code) then .error (.octets .control offset)
        else .ok (Char.ofNat code, n)

/-- The characters of octets that begin at an offset. Those before them are in `done`, last one
first. -/
def decodeFrom (done : List Char) (offset : Nat) : List UInt8 → Except YamlError (List Char)
  | [] => .ok done.reverse
  | b :: rest =>
    match decodeOne offset b rest with
    | .error e => .error e
    | .ok (c, n) => decodeFrom (c :: done) (offset + n + 1) (rest.drop n)
termination_by octets => octets.length
decreasing_by
  simp only [List.length_drop, List.length_cons]
  omega

def decode (octets : List UInt8) : Except YamlError (List Char) := decodeFrom [] 0 octets

end B33.Yaml
