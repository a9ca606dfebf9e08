import B33.Assembly.Emission

/-!
# Assembly

Assembling a source lays it out and then emits it. The same source and options always give the same
program, and every error of the layout comes before any error of the emission.
-/

namespace B33

structure AssemblyOptions where
  origin : UInt16 := defaultOrigin
  /-- Whether the program carries its labels and the source lines of its bytes. -/
  debug : Bool := false
  /-- Whether the program needs both monitors even if no operand is on the second one. -/
  dualMonitor : Bool := false
  kind : ImageKind := .executable
  deriving DecidableEq, Repr

structure Assembled where
  program : Program
  listing : List Assembly.ListingLine

namespace Assembly

def Output.program (o : AssemblyOptions) (l : Layout) (out : Output) : Program where
  bytes := out.listing.toList.flatMap (·.bytes)
  origin := o.origin
  entry := out.entry
  labels := l.symbols.labels
  hasDebugInfo := o.debug
  debugEntries := if o.debug then out.listing.toList.filterMap ListingLine.debugEntry? else []
  dualMonitor := out.secondMonitor
  kind := o.kind

def Layout.assemble (o : AssemblyOptions) (l : Layout) : Except SourceError Assembled := do
  let out ← l.emit { entry := o.origin, secondMonitor := o.dualMonitor }
  return { program := out.program o l, listing := out.listing.toList }

end Assembly

def assemble (o : AssemblyOptions) (source : String) : Except SourceError Assembled := do
  let l ← Assembly.Layout.ofSource o.origin source
  l.assemble o

def Program.record (p : Program) : LogRecord where
  level := .info
  message :=
    "assembled " ++ Numeral.decimal p.bytes.length ++ " bytes at $" ++ Numeral.word p.origin ++
      ", entry $" ++ Numeral.word p.entry

def assemblyLog (o : AssemblyOptions) (source : String) : List LogRecord :=
  match Assembly.Layout.ofSource o.origin source with
  | .error _ => []
  | .ok l =>
    match l.assemble o with
    | .error _ => [l.record]
    | .ok assembled => [l.record, assembled.program.record]

end B33
