import Downlink.Value

/-!
# Records

A record holds the values of one decoded payload in wire order, reserved fields left out.
-/

namespace Downlink

structure Record where
  entries : List (String × Value)
  /-- Bits that the layout read. -/
  consumedBits : Nat
  /-- Bits that the payload has. -/
  payloadBits : Nat
deriving DecidableEq, Repr

namespace Record

def get? (r : Record) (name : String) : Option Value :=
  r.entries.lookup name

def length (r : Record) : Nat :=
  r.entries.length

/-- Payload bits behind the last field. -/
def unreadBits (r : Record) : Nat :=
  r.payloadBits - r.consumedBits

def toJson (r : Record) : Json :=
  .object (r.entries.map fun (name, value) => (name, value.toJson))

/-- One line a field, names moved to the right, and an empty line behind the last. -/
def lines (r : Record) : List String :=
  let width := (r.entries.map fun (name, _) => name.utf8ByteSize).foldl max 0
  let line (name : String) (value : Value) : String :=
    String.ofList (List.replicate (width - name.length) ' ') ++ name ++ " = " ++ value.text
  r.entries.map (fun (name, value) => line name value) ++ [""]

end Record

end Downlink
