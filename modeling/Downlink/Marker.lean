import Downlink.Text.Hex

/-!
# Frame markers

A frame on the wire is a sync marker, a payload and a terminator. Both markers are two bytes
long.
-/

namespace Downlink

/-- A two-byte marker. -/
structure Marker where
  first : UInt8
  second : UInt8
deriving DecidableEq, Repr

namespace Marker

def toBytes (m : Marker) : Bytes :=
  [m.first, m.second]

/-- The marker as messages show it, such as `[5E, D5]`. -/
def text (m : Marker) : String :=
  let byte (b : UInt8) := (String.ofList (Hex.ofByte b)).toUpper
  "[" ++ byte m.first ++ ", " ++ byte m.second ++ "]"

/-- Whether the bytes begin with the marker. -/
def starts (m : Marker) : Bytes → Bool
  | a :: b :: _ => a == m.first && b == m.second
  | _ => false

/-- The place of the marker's first occurrence. -/
def find? (m : Marker) (bytes : Bytes) : Option Nat :=
  go 0 bytes
where
  /-- Searches bytes that begin at a given place. -/
  go (place : Nat) : Bytes → Option Nat
    | [] => none
    | b :: rest => if m.starts (b :: rest) then some place else go (place + 1) rest

end Marker

structure Markers where
  sync : Marker
  terminator : Marker
deriving DecidableEq, Repr

/-- The flight markers: `5E D5` in front and a carriage return with a line feed behind. -/
def Markers.flight : Markers where
  sync := ⟨0x5e, 0xd5⟩
  terminator := ⟨0x0d, 0x0a⟩

end Downlink
