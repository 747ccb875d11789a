import Downlink.Layout
import Downlink.Text.Json

/-!
# Layouts as tables

One row a field, reserved ones included, with its place in the payload.
-/

namespace Downlink

/-- A text in a column, moved to the left or to the right. -/
def padRight (width : Nat) (s : String) : String :=
  s ++ String.ofList (List.replicate (width - s.length) ' ')

def padLeft (width : Nat) (s : String) : String :=
  String.ofList (List.replicate (width - s.length) ' ') ++ s

namespace Layout

def kindName (f : Field) : String :=
  if f.reserved then "reserved" else if f.signed then "signed" else "unsigned"

def tableLine (name offset bits kind scale : String) : String :=
  " ".intercalate
    [padRight 10 name, padLeft 6 offset, padLeft 5 bits, padRight 8 kind, padLeft 5 scale]

def tableRow (f : Field) (offset : Nat) : String :=
  tableLine f.name (toString offset) (toString f.width) (kindName f) (toString f.scale.toNat)

/-- A heading, a row a field, and the size of the payload. -/
def table (l : Layout) : List String :=
  tableLine "field" "offset" "bits" "type" "scale"
    :: l.offsets.map (fun (f, offset) => tableRow f offset)
    ++ [toString l.frameBits ++ " bits (" ++ toString l.frameBytes ++ " bytes)"]

def rowJson (f : Field) (offset : Nat) : Json :=
  .object
    [("name", .string f.name), ("offset", .int offset), ("bit_width", .int f.width),
     ("signed", .bool f.signed), ("scale", .int f.scale.toNat), ("reserved", .bool f.reserved)]

def tableJson (l : Layout) : Json :=
  .array (l.offsets.map fun (f, offset) => rowJson f offset)

end Layout

end Downlink
