import B33.Text.Numeral

/-!
# Quoted text

A text is shown between double quotes with one line of it on one line: what cannot be seen is written
as an escape.
-/

namespace B33.Quoted

/-- Characters beyond ASCII that cannot be seen, or only with the character before them: ranges with
both ends. -/
def unseen : List (Nat × Nat) :=
  [(0x7F, 0xA0), (0xAD, 0xAD), (0x300, 0x36F), (0x1680, 0x1680), (0x2000, 0x200F), (0x2028, 0x202F),
    (0x205F, 0x206F), (0x20D0, 0x20F0), (0x3000, 0x3000), (0xD800, 0xF8FF), (0xFE00, 0xFE0F),
    (0xFE20, 0xFE2F), (0xFEFF, 0xFEFF), (0xFFF0, 0xFFFB), (0xFFFE, 0xFFFF), (0xE0000, 0x10FFFF)]

def escape (c : Char) : String :=
  match c with
  | '"' => "\\\""
  | '\\' => "\\\\"
  | '\n' => "\\n"
  | '\r' => "\\r"
  | '\t' => "\\t"
  | '\x00' => "\\0"
  | c =>
    let n := c.toNat
    if n < 0x20 || unseen.any fun (first, last) => first ≤ n && n ≤ last then
      "\\u\x7b" ++ (String.ofList (Numeral.digits 16 n)).toLower ++ "\x7d"
    else c.toString

def text (s : String) : String := "\"" ++ String.join (s.toList.map escape) ++ "\""

end B33.Quoted
