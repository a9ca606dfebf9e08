import B33.Console.Emulator

/-!
# The commands

The program's first argument says which command is meant; the others are the command's own.
-/

namespace B33.Console

def systemText (details : String) (code : UInt32) : String :=
  details ++ " (os error " ++ Numeral.decimal code.toNat ++ ")"

def reasonOf : IO.Error → String
  | .alreadyExists _ code details | .otherError code details | .resourceBusy code details
  | .resourceVanished code details | .unsupportedOperation code details
  | .hardwareFault code details | .unsatisfiedConstraints code details
  | .illegalOperation code details | .protocolError code details | .timeExpired code details
  | .interrupted _ code details | .noFileOrDirectory _ code details
  | .invalidArgument _ code details | .permissionDenied _ code details
  | .resourceExhausted _ code details | .inappropriateType _ code details
  | .noSuchThing _ code details => systemText details code
  | .unexpectedEof => "failed to fill whole buffer"
  | .userError text => text

def diskHost : Host IO where
  read path := do
    match ← (IO.FS.Handle.mk path .read).toBaseIO with
    | .error e => return .error { reason := reasonOf e }
    | .ok file =>
      match ← file.readBinToEnd.toBaseIO with
      | .error e => return .error { reason := reasonOf e, isOpen := true }
      | .ok bytes => return .ok bytes.data.toList
  write path bytes := do
    try
      IO.FS.writeBinFile path ⟨bytes.toArray⟩
      return .ok ()
    catch e => return .error (reasonOf e)
  print := IO.print

end B33.Console

open B33.Console in
def main (args : List String) : IO UInt32 := do
  let exit ← match args with
    | "b33asm" :: args => Assembler.run diskHost args
    | "b33emu" :: args => Emulator.run diskHost args
    | _ => pure (.usage "name a command: b33asm or b33emu")
  IO.eprint exit.errorText
  return exit.code.toUInt32
