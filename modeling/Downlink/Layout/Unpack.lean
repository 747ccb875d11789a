import Downlink.Layout
import Downlink.Record

/-!
# Unpacking payloads

Fields are read one after another from the first bit on. Reserved fields are read and dropped;
bits behind the last field stay unread, which `unpackExact` refuses.
-/

namespace Downlink

namespace Field

def readRaw (f : Field) (r : BitReader) : Except FieldError (Int × BitReader) :=
  if f.signed then r.readSigned f.name f.width
  else (r.readUnsigned f.name f.width).map fun (n, r) => ((n : Int), r)

end Field

namespace Layout

/-- Reads fields in order and keeps the values of those that are not reserved. -/
def readFields : List Field → BitReader → Except FieldError (List (String × Value) × BitReader)
  | [], r => .ok ([], r)
  | f :: rest, r => do
    let (raw, r) ← f.readRaw r
    let (entries, r) ← readFields rest r
    return (if f.reserved then entries else (f.name, Value.ofRaw f raw) :: entries, r)

def unpack (l : Layout) (payload : Bytes) : Except FieldError Record := do
  let (entries, r) ← readFields l.fields (BitReader.ofBytes payload)
  return { entries, consumedBits := r.position, payloadBits := 8 * payload.length }

/-- The record that a payload holds; bits behind the last field are refused. -/
def unpackExact (l : Layout) (payload : Bytes) : Except FieldError Record := do
  let record ← l.unpack payload
  if record.unreadBits = 0 then return record
  else throw (.trailingBits record.consumedBits record.unreadBits)

end Layout

end Downlink
