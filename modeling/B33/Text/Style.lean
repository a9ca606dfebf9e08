/-!
# Styled terminal text

A style opens and closes with an escape sequence of its own. Colours close with the default
colour, and bold and dim text close with normal weight.
-/

namespace B33

inductive Style where
  | red | green | yellow | blue | cyan | bold | dim | underline
  deriving DecidableEq, Repr

namespace Style

def openCode : Style → String
  | red => "31"
  | green => "32"
  | yellow => "33"
  | blue => "34"
  | cyan => "36"
  | bold => "1"
  | dim => "2"
  | underline => "4"

def closeCode : Style → String
  | red | green | yellow | blue | cyan => "39"
  | bold | dim => "22"
  | underline => "24"

def escape (code : String) : String := "\x1b[" ++ code ++ "m"

/-- The text in several styles at once, which open and close in the same order. -/
def paintAll (styles : List Style) (s : String) : String :=
  String.join (styles.map fun style => escape style.openCode) ++ s ++
    String.join (styles.map fun style => escape style.closeCode)

def paint (style : Style) (s : String) : String := paintAll [style] s

/-- Texts in a row, each in a colour of its own. A colour that another one replaces is not closed. -/
def paintRun : List (Style × String) → String
  | [] => ""
  | [(style, s)] => paint style s
  | (style, s) :: rest => escape style.openCode ++ s ++ paintRun rest

end Style

end B33
