import Downlink.Field

/-!
# Layouts

A layout is the ordered list of a payload's fields, checked once: widths and scales are usable and
no name occurs twice. The frame length is the sum of the widths, so a declared length is compared
and then not kept.

* `Layout.fieldsFault?_eq_none_iff`: the check finds a fault exactly when there is one.
-/

namespace Downlink

structure Layout where
  fields : List Field
  fields_valid : ∀ f ∈ fields, f.Valid
  names_nodup : (fields.map Field.name).Nodup
deriving DecidableEq

namespace Layout

def totalWidth (fields : List Field) : Nat :=
  fields.foldr (fun f bits => f.width + bits) 0

/-! ## Checking -/

/-- The first fault in a field list: a field's own, or a name among those seen before. -/
def fieldsFault? (seen : List String) : List Field → Option FieldError
  | [] => none
  | f :: rest =>
    match f.fault? with
    | some fault => some fault
    | none =>
      if f.name ∈ seen then some (.duplicateField f.name) else fieldsFault? (f.name :: seen) rest

theorem fieldsFault?_eq_none_iff (seen : List String) (fields : List Field) :
    fieldsFault? seen fields = none ↔
      (∀ f ∈ fields, f.Valid) ∧ (fields.map Field.name).Nodup ∧ ∀ f ∈ fields, f.name ∉ seen := by
  induction fields generalizing seen with
  | nil => simp [fieldsFault?]
  | cons f rest ih =>
    unfold fieldsFault?
    by_cases hf : f.Valid
    · rw [(f.fault?_eq_none_iff).2 hf]
      by_cases hs : f.name ∈ seen
      · simp [hs]
      · simp only [hs, if_false, ih, List.mem_cons, List.map_cons, List.nodup_cons, List.mem_map]
        constructor
        · rintro ⟨hv, hn, hd⟩
          refine ⟨?_, ⟨?_, hn⟩, ?_⟩
          · rintro g (rfl | hg)
            · exact hf
            · exact hv g hg
          · rintro ⟨g, hg, he⟩
            exact hd g hg (Or.inl he)
          · rintro g (rfl | hg)
            · exact hs
            · exact fun h => hd g hg (Or.inr h)
        · rintro ⟨hv, ⟨hnew, hn⟩, hd⟩
          refine ⟨fun g hg => hv g (Or.inr hg), hn, fun g hg => ?_⟩
          rintro (he | h)
          · exact hnew ⟨g, hg, he⟩
          · exact hd g (Or.inr hg) h
    · cases hfault : f.fault? with
      | none => exact absurd ((f.fault?_eq_none_iff).1 hfault) hf
      | some fault => simp [hf]

/-- Builds a layout, or names the first fault; the length is compared last. -/
def ofFields (fields : List Field) (declaredBits : Nat) : Except FieldError Layout :=
  match h : fieldsFault? [] fields with
  | some fault => .error fault
  | none =>
    if totalWidth fields = declaredBits then
      .ok ⟨fields, ((fieldsFault?_eq_none_iff _ _).1 h).1, ((fieldsFault?_eq_none_iff _ _).1 h).2.1⟩
    else .error (.lengthMismatch declaredBits (totalWidth fields))

/-- A layout as it is written down: the length may be left out. -/
structure Draft where
  fields : List Field
  frameBits : Option Nat
deriving DecidableEq, Repr

/-- Builds the layout of a draft; a length that is left out is the sum of the widths. -/
def Draft.build (d : Draft) : Except FieldError Layout :=
  ofFields d.fields (d.frameBits.getD (totalWidth d.fields))

/-! ## The flight layout -/

def flightFields : List Field :=
  [ .unsigned "fps" 6,
    .unsigned "err" 6,
    (Field.twosComplement "Ax" 6).withScale 10,
    (Field.twosComplement "Ay" 6).withScale 10,
    (Field.twosComplement "Az" 9).withScale 10,
    .twosComplement "Gx" 10,
    .twosComplement "Gy" 10,
    .twosComplement "Gz" 12,
    .twosComplement "roll" 9,
    .twosComplement "pitch" 9,
    .twosComplement "yaw" 9,
    .unsigned "alt" 12,
    .twosComplement "temp" 8,
    (Field.unsigned "volts" 8).withScale 10,
    .padding "reserved" 8 ]

/-- The layout that the flight computer sends, 128 bits long. -/
def flight : Layout where
  fields := flightFields
  fields_valid := ((fieldsFault?_eq_none_iff [] flightFields).1 (by decide)).1
  names_nodup := ((fieldsFault?_eq_none_iff [] flightFields).1 (by decide)).2.1

/-! ## Looking things up -/

/-- The payload length in bits. -/
def frameBits (l : Layout) : Nat :=
  totalWidth l.fields

/-- The payload length in whole bytes. -/
def frameBytes (l : Layout) : Nat :=
  Bits.bytesFor l.frameBits

/-- The fields that a record holds, in wire order. -/
def reported (l : Layout) : List Field :=
  l.fields.filter (!·.reserved)

def recordLength (l : Layout) : Nat :=
  l.reported.length

def slotOf? (l : Layout) (name : String) : Option Nat :=
  l.reported.findIdx? (·.name == name)

def slotField? (l : Layout) (slot : Nat) : Option Field :=
  l.reported[slot]?

def reports (l : Layout) (name : String) : Bool :=
  l.reported.any (·.name == name)

/-- The field of a name, reserved fields included. -/
def field? (l : Layout) (name : String) : Option Field :=
  l.fields.find? (·.name == name)

/-- Fields with the bit offset of each, the first at `start`. -/
def offsetsFrom (start : Nat) : List Field → List (Field × Nat)
  | [] => []
  | f :: rest => (f, start) :: offsetsFrom (start + f.width) rest

/-- Every field with its bit offset. -/
def offsets (l : Layout) : List (Field × Nat) :=
  offsetsFrom 0 l.fields

/-- The layout written down, its length included. -/
def toDraft (l : Layout) : Draft :=
  ⟨l.fields, some l.frameBits⟩

end Layout

end Downlink
