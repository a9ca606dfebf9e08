/-!
# Columns

A field is filled with blanks up to its width, counted in characters; a longer text is left whole.
-/

namespace B33

def padRight (width : Nat) (s : String) : String :=
  s ++ String.ofList (List.replicate (width - s.length) ' ')

def padLeft (width : Nat) (s : String) : String :=
  String.ofList (List.replicate (width - s.length) ' ') ++ s

end B33
