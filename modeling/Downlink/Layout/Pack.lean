import Downlink.Layout
import Downlink.Record

/-!
# Packing payloads

Fields are written in wire order, reserved ones as zeros. Engineering values are multiplied by the
scale and rounded to the nearest raw integer, halves away from zero; raw integers of a record are
written as they are. Either must fit the field.
-/

namespace Downlink

namespace Field

/-- The raw integer of an engineering value, or a refusal when the field cannot hold it. -/
def quantize (f : Field) (value : Binary64) : Except FieldError Int :=
  match (value.mul (.ofNat f.scale.toNat)).toIntRounded? with
  | some raw => if f.holds raw then .ok raw else .error (f.outOfRange value)
  | none => .error (f.outOfRange value)

/-- A raw integer, or a refusal when the field cannot hold it. -/
def checkRaw (f : Field) (raw : Int) : Except FieldError Int :=
  if f.holds raw then .ok raw else .error (f.outOfRange (f.engineering raw))

end Field

namespace Layout

/-- Writes fields in order, the raw integer of each that is not reserved given by `rawOf`. -/
def writeFields (rawOf : Field → Except FieldError Int) :
    List Field → BitWriter → Except FieldError BitWriter
  | [], w => .ok w
  | f :: rest, w => do
    let raw ← if f.reserved then .ok 0 else rawOf f
    writeFields rawOf rest (w.put raw f.width)

def packRaw (l : Layout) (rawOf : Field → Except FieldError Int) : Except FieldError Bytes := do
  return (← writeFields rawOf l.fields .empty).finish

/-- The first name that the layout does not report. -/
def unknownName? (l : Layout) (values : List (String × Binary64)) : Option String :=
  (values.find? fun (name, _) => !l.reports name).map Prod.fst

/-- The last value listed for a name. -/
def lastValue? (values : List (String × Binary64)) (name : String) : Option Binary64 :=
  values.reverse.lookup name

/-- Packs engineering values. Every reported field needs one; of several the last counts. -/
def packValues (l : Layout) (values : List (String × Binary64)) : Except FieldError Bytes :=
  match l.unknownName? values with
  | some name => .error (.unknownField name)
  | none =>
    l.packRaw fun f =>
      match lastValue? values f.name with
      | some value => f.quantize value
      | none => .error (.missingValue f.name)

/-- Packs the raw integers of a record, which may stem from another layout. -/
def packRecord (l : Layout) (record : Record) : Except FieldError Bytes :=
  l.packRaw fun f =>
    match record.get? f.name with
    | some value => f.checkRaw value.raw
    | none => .error (.missingValue f.name)

end Layout

end Downlink
