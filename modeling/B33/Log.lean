/-!
# Log records

What the parts of the system report while they work.
-/

namespace B33

inductive LogLevel where
  | info | debug | trace
  deriving DecidableEq, Repr

def LogLevel.name : LogLevel → String
  | info => "INFO"
  | debug => "DEBUG"
  | trace => "TRACE"

/-- A reported event: a message and named details. -/
structure LogRecord where
  level : LogLevel
  message : String
  details : List (String × String) := []
  deriving DecidableEq, Repr

end B33
