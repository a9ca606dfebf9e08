import B33.Assembly
import B33.Analysis

/-!
# Printed tables

Listings show assembled lines with their bytes, symbol tables show labels, and analyses show decoded
lines. Each table is a text of whole lines.
-/

namespace B33.Listing

def rule : String := "-------------------+-----------------------------------------------------\n"

/-- Up to three bytes in hexadecimal, and a plus sign if there are more. -/
def bytesText (bytes : List UInt8) : String :=
  let shown := " ".intercalate ((bytes.take 3).map Numeral.byte)
  if (bytes.drop 3).isEmpty then shown else shown ++ "+"

/-- An assembled line. A line with neither bytes nor label shows no address. -/
def lineText (l : Assembly.ListingLine) : String :=
  let address :=
    if l.bytes.isEmpty && l.line.label.isNone then "    " else Numeral.word l.address
  let label := (l.line.label.map (Style.paint .green)).getD ""
  let body := (l.line.statement.map Source.Statement.coloured).getD ""
  let comment := (l.line.comment.map fun c => Style.paint .dim (";" ++ c)).getD ""
  "[" ++ address ++ "] " ++ padRight 9 (bytesText l.bytes) ++ " | " ++
    padLeft 4 (Numeral.decimal l.line.number) ++ ": " ++ label ++ " " ++ body ++ " " ++ comment ++
    "\n"

def text (ls : List Assembly.ListingLine) : String :=
  rule ++ String.join (ls.map lineText) ++ rule

def symbolsText (labels : LabelTable) : String :=
  String.join <| labels.toList.map fun (name, address) =>
    "  " ++ Style.paint .cyan ("$" ++ Numeral.word address) ++ " " ++ Style.paint .green name ++ "\n"

def analysedText (l : AnalysedLine) : String :=
  let label := match l.label with
    | some name => padRight 19 "" ++ "| " ++ Style.paint .green (name ++ ":") ++ "\n"
    | none => ""
  label ++ "[" ++ Numeral.word l.address ++ "] " ++ padRight 9 (bytesText l.bytes) ++ " |   " ++
    padRight 20 l.text ++ " " ++ Style.paint .dim ("; " ++ l.note) ++ "\n"

def analysisText (ls : List AnalysedLine) : String :=
  rule ++ String.join (ls.map analysedText) ++ rule

def diagnosticText (file source : String) (e : SourceError) : String :=
  let content := (splitLines source)[e.line - 1]?.getD ""
  let bar := "      " ++ Style.paint .blue "|" ++ "\n"
  Style.paintAll [.red, .bold] "error" ++ ": " ++ e.cause.message ++ "\n" ++
    "     " ++ Style.paint .blue "-->" ++ " " ++
    Style.paint .underline (file ++ ":" ++ Numeral.decimal e.line) ++ "\n" ++ bar ++
    " " ++ Style.paint .blue (padLeft 4 (Numeral.decimal e.line) ++ " |") ++ " " ++ content ++ "\n" ++
    bar

end B33.Listing
