import B33.Address
import B33.Console.Host
import B33.Console.SymbolFile
import B33.Listing

/-!
# The assembler's command

The command assembles a source file, or decodes a program and prints it as a table.
-/

namespace B33.Console.Assembler

def isAddress (s : String) : Bool := (Address.parse s).isOk

def spec : CommandSpec where
  name := "b33asm"
  about := "Assembler for the B33 CPU"
  operand := "INPUT"
  operandHelp := "Source file, or a program to disassemble with --analyze"
  options :=
    [{ long := "output", letter := some 'o', value := some "OUTPUT"
       help := "Output file [default: input with .b33 or .bin extension]" },
      { long := "origin", value := some "ORIGIN", accepts := isAddress
        help := "Load address of the program" },
      { long := "raw", help := "Write a raw binary instead of a B33 executable" },
      { long := "debug", help := "Embed source lines and labels in the executable" },
      { long := "dual-monitor", help := "Mark the program as needing the second monitor" },
      { long := "dump", letter := some 'd', help := "Print the assembly listing" },
      { long := "symbols", value := some "SYMBOLS", help := "Write the label table as YAML" },
      { long := "analyze", letter := some 'a'
        help := "Disassemble an executable (or a raw binary at --origin)" }]

def originOf (g : Given) : UInt16 :=
  ((g.value? "origin").bind fun s => (Address.parse s).toOption).getD defaultOrigin

/-- The name of a file without its extension. A dot at the front begins no extension. -/
def stem (name : List Char) : List Char :=
  match name.reverse.dropWhile (· != '.') with
  | _ :: before => if before.isEmpty then name else before.reverse
  | [] => name

/-- A path with another extension. Where the name without its extension is only a dot, that dot and
the one of the extension lead to the directory above, which has no extension. -/
def withExtension (path extension : String) : String :=
  let name := (path.toList.reverse.takeWhile (· != '/')).reverse
  let parent := path.toList.take (path.length - name.length)
  match stem name with
  | ['.'] => String.ofList (parent ++ ['.', '.'])
  | stem => String.ofList (parent ++ stem) ++ "." ++ extension

def openFailure (path reason : String) : Failure :=
  { message := "Failed to open file: " ++ path, causes := [reason] }

def summary (p : Program) : String :=
  "  " ++ Style.paint .green "ok" ++ ": " ++ Numeral.decimal p.bytes.length ++ " bytes at $" ++
    Numeral.word p.origin ++ ", entry $" ++ Numeral.word p.entry ++ ", " ++
    Numeral.decimal p.labels.size ++ " labels" ++
    (if p.dualMonitor then ", dual monitor" else "") ++ "\n"

variable {m : Type → Type} [Monad m]

def readText (h : Host m) (path : String) : Command m String := do
  let bytes ← h.readFile path fun e => openFailure path e.reason
  match String.fromUTF8? ⟨bytes.toArray⟩ with
  | some s => return s
  | none => throw (openFailure path "stream did not contain valid UTF-8")

def assembleFile (h : Host m) (input : String) (g : Given) : Command m Unit := do
  h.say ("1. Read " ++ input ++ "\n")
  let source ← readText h input
  h.say "2. Assemble\n"
  let raw := g.has "raw"
  let options : AssemblyOptions :=
    { origin := originOf g, debug := g.has "debug", dualMonitor := g.has "dual-monitor"
      kind := if raw then .raw else .executable }
  match assemble options source with
  | .error { cause := .countOverflow, .. } =>
    throw { message := Source.Cause.countOverflow.message, isBreak := true }
  | .error e =>
    h.say (Listing.diagnosticText input source e)
    throw { message := e.message }
  | .ok assembled =>
    let program := assembled.program
    h.say (summary program)
    if g.has "dump" then h.say (Listing.text assembled.listing)
    let output := (g.value? "output").getD (withExtension input (if raw then "bin" else "b33"))
    h.say ("3. Write " ++ output ++ "\n")
    match program.image with
    | .error e => throw { message := e.message }
    | .ok image => h.writeFile output image
    match g.value? "symbols" with
    | none => return ()
    | some path =>
      h.writeFile path (Executable.textBytes (SymbolFile.text program.labels))
      h.say ("   + " ++ path ++ "\n")

def analyzeFile (h : Host m) (input : String) (g : Given) : Command m Unit := do
  let data ← h.readFile input fun e => openFailure input e.reason
  match Program.ofImage data (originOf g) with
  | .error e => throw { message := "Failed to load " ++ input, causes := [e.message] }
  | .ok program =>
    h.say (Listing.analysisText (Analysis.lines program))
    match g.value? "output" with
    | none => return ()
    | some path =>
      h.writeFile path (Executable.textBytes (Analysis.toSource program))
      h.say ("  > " ++ path ++ "\n")

def body (h : Host m) (input : String) (g : Given) : Command m Unit := do
  h.say "B33 Assembler\n"
  if g.has "analyze" then analyzeFile h input g else assembleFile h input g

def run (h : Host m) (args : List String) : m Exit := runCommand h spec body args

end B33.Console.Assembler
