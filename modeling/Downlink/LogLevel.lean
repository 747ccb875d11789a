/-!
# Log levels

How much a ground station logs, counted up from warnings.
-/

namespace Downlink

inductive LogLevel
  | warn
  | info
  | debug
  | trace
deriving DecidableEq, Repr

namespace LogLevel

def ofCount : Nat → LogLevel
  | 0 => .warn
  | 1 => .info
  | 2 => .debug
  | _ => .trace

def name : LogLevel → String
  | .warn => "warn"
  | .info => "info"
  | .debug => "debug"
  | .trace => "trace"

def directive (l : LogLevel) : String :=
  "groundlink=" ++ l.name

end LogLevel

end Downlink
