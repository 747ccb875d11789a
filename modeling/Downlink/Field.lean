import Downlink.Bits.Writer

/-!
# Fields

A field is a run of bits with a name. Its raw integer times `1 / scale` is the engineering value;
a reserved field is skipped when reading and zero when writing.
-/

namespace Downlink

structure Field where
  name : String
  width : Nat
  signed : Bool
  scale : UInt32
  reserved : Bool
deriving DecidableEq, Repr

namespace Field

def unsigned (name : String) (width : Nat) : Field :=
  ⟨name, width, false, 1, false⟩

def twosComplement (name : String) (width : Nat) : Field :=
  ⟨name, width, true, 1, false⟩

def padding (name : String) (width : Nat) : Field :=
  ⟨name, width, false, 1, true⟩

def withScale (f : Field) (scale : UInt32) : Field :=
  { f with scale := scale }

def isScaled (f : Field) : Bool :=
  f.scale != 1

def rawMin (f : Field) : Int :=
  if f.signed then -2 ^ (f.width - 1) else 0

def rawMax (f : Field) : Int :=
  if f.signed then 2 ^ (f.width - 1) - 1 else 2 ^ f.width - 1

def holds (f : Field) (raw : Int) : Bool :=
  f.rawMin ≤ raw && raw ≤ f.rawMax

def engineering (f : Field) (raw : Int) : Binary64 :=
  (Binary64.ofInt raw).div (Binary64.ofNat f.scale.toNat)

/-- Refuses a value, naming the range of engineering values that the field has. -/
def outOfRange (f : Field) (value : Binary64) : FieldError :=
  .valueOutOfRange f.name value (f.engineering f.rawMin) (f.engineering f.rawMax)

/-- The first fault of a field by itself: its width, then its scale. -/
def fault? (f : Field) : Option FieldError :=
  if f.width = 0 ∨ maxFieldWidth < f.width then some (.invalidWidth f.name f.width)
  else if f.scale = 0 then some (.zeroScale f.name)
  else none

structure Valid (f : Field) : Prop where
  width_pos : 1 ≤ f.width
  width_le : f.width ≤ maxFieldWidth
  scale_ne : f.scale ≠ 0

theorem fault?_eq_none_iff (f : Field) : f.fault? = none ↔ f.Valid := by
  constructor
  · intro h
    unfold fault? at h
    split at h
    · simp at h
    · split at h
      · simp at h
      · exact ⟨by omega, by omega, by assumption⟩
  · rintro ⟨h₁, h₂, h₃⟩
    unfold fault?
    rw [if_neg (by omega), if_neg h₃]

end Field

end Downlink
