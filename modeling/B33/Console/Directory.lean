import B33.Console.Host

/-!
# A directory as a value

A directory of files, none of which is a directory itself, and what has been printed. Paths are
relative to it. A path can also lead to a file in a directory above, which is known by its name
behind the dots that lead there. Nothing is known of any other directory.
-/

namespace B33.Console

/-- Files with their names, and the text printed so far. -/
structure Directory where
  files : List (String × List UInt8) := []
  printed : String := ""
  deriving Repr

namespace Directory

def missing : String := "No such file or directory (os error 2)"

def notDirectory : String := "Not a directory (os error 20)"

def isDirectory : String := "Is a directory (os error 21)"

def tooLong : String := "File name too long (os error 36)"

def notText : String := "file name contained an unexpected NUL byte"

def nameLimit : Nat := 255

def pathLimit : Nat := 4095

inductive PathEnd where
  | none
  | slash
  /-- A dot, which stands for the directory that the name would be. -/
  | dot
  deriving DecidableEq, Repr

def PathEnd.of (path : String) : PathEnd :=
  if ((path.splitOn "/").filter (· != "")).getLast? == some "." then dot
  else if path.endsWith "/" then slash
  else .none

structure Place where
  /-- The name of the file, behind the dots that lead to its directory. -/
  name : String
  fits : Bool
  pathEnd : PathEnd
  deriving DecidableEq, Repr

/-- Where a path leads, if it leads to a name. Only the directories on the way have been looked
for. -/
def resolve (d : Directory) (path : String) : Except String Place :=
  if path.contains '\x00' then .error notText
  else if pathLimit < path.utf8ByteSize then .error tooLong
  else if path.isEmpty then .error missing
  else
    let parts := (path.splitOn "/").filter fun part => part != "" && part != "."
    match parts.dropWhile (· == "..") with
    | [] => .error isDirectory
    | last :: further =>
      let up := parts.takeWhile (· == "..")
      let name := "/".intercalate (up ++ [last])
      let fits := last.utf8ByteSize ≤ nameLimit
      if path.startsWith "/" then .error (if fits then missing else tooLong)
      else if further.isEmpty then .ok { name, fits, pathEnd := .of path }
      else if !fits then .error tooLong
      else .error (if (d.files.lookup name).isSome then notDirectory else missing)

def find (d : Directory) (path : String) : Except String (List UInt8) := do
  let place ← d.resolve path
  if !place.fits then throw tooLong
  match d.files.lookup place.name with
  | some bytes => if place.pathEnd = .none then return bytes else throw notDirectory
  | none => throw missing

/-- Reads a file. The only thing that can be opened and not read is a directory. -/
def read (d : Directory) (path : String) : Except Unreadable (List UInt8) :=
  (d.find path).mapError fun reason => { reason, isOpen := reason == isDirectory }

/-- The files with one more, which replaces one of its name. -/
def put (name : String) (bytes : List UInt8) (files : List (String × List UInt8)) :
    List (String × List UInt8) :=
  (name, bytes) :: files.filter (·.1 != name)

def write (d : Directory) (path : String) (bytes : List UInt8) : Except String Directory := do
  let place ← d.resolve path
  match place.pathEnd with
  | .slash => throw isDirectory
  | pathEnd =>
    if !place.fits then throw tooLong
    if pathEnd = .none then return { d with files := put place.name bytes d.files }
    throw (if (d.files.lookup place.name).isSome then notDirectory else missing)

def host : Host (StateM Directory) where
  read path := do return (← get).read path
  write path bytes := modifyGet fun d =>
    match d.write path bytes with
    | .ok d => (.ok (), d)
    | .error reason => (.error reason, d)
  print s := modify fun d => { d with printed := d.printed ++ s }

end Directory

end B33.Console
