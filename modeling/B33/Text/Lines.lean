/-!
# Lines of a text

A line ends at a line feed. One carriage return right before that line feed belongs to the line's
end; any other carriage return belongs to the line. A text that ends with a line feed has no
further, empty line after it.
-/

namespace B33

/-- A line without the carriage return that ends it, if one does. -/
def dropReturn (l : List Char) : List Char :=
  if l.getLast? = some '\r' then l.dropLast else l

/-- The lines of a text after those already found, which stand newest first. `line` holds the
characters of the current line, last one first. -/
def linesOnto (found : List (List Char)) (line : List Char) : List Char → List (List Char)
  | [] => if line.isEmpty then found.reverse else (line.reverse :: found).reverse
  | c :: cs =>
    if c = '\n' then linesOnto (dropReturn line.reverse :: found) [] cs
    else linesOnto found (c :: line) cs

def splitLines (s : String) : List String := (linesOnto [] [] s.toList).map String.ofList

end B33
