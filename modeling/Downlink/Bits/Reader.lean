import Downlink.Bits
import Downlink.Error

/-!
# Reading bits

A reader is a bit string and a place in it. A read takes the next `width` bits and moves behind
them, or fails and moves nothing.
-/

namespace Downlink

def maxFieldWidth : Nat := 64

/-- A place in a bit string. -/
structure BitReader where
  bits : Bits
  position : Nat
  position_le : position ≤ bits.length

namespace BitReader

/-- A reader at the first bit of a byte string. -/
def ofBytes (bytes : Bytes) : BitReader :=
  ⟨Bits.ofBytes bytes, 0, Nat.zero_le _⟩

/-- The number of bits after the place. -/
def remaining (r : BitReader) : Nat :=
  r.bits.length - r.position

/-- Takes the next `width` bits. The field's name is for the message. -/
def read (r : BitReader) (field : String) (width : Nat) : Except FieldError (Bits × BitReader) :=
  if width = 0 ∨ maxFieldWidth < width then .error (.invalidWidth field width)
  else if h : r.position + width ≤ r.bits.length then
    .ok ((r.bits.drop r.position).take width, ⟨r.bits, r.position + width, h⟩)
  else .error (.insufficientBits field width r.remaining r.position)

/-- Takes the next `width` bits as a natural number. -/
def readUnsigned (r : BitReader) (field : String) (width : Nat) :
    Except FieldError (Nat × BitReader) :=
  (r.read field width).map fun (bits, r) => (bits.toNat, r)

/-- Takes the next `width` bits as a two's complement integer. -/
def readSigned (r : BitReader) (field : String) (width : Nat) :
    Except FieldError (Int × BitReader) :=
  (r.read field width).map fun (bits, r) => (bits.toInt, r)

@[simp] theorem remaining_ofBytes (bytes : Bytes) :
    (ofBytes bytes).remaining = 8 * bytes.length := by
  simp [ofBytes, remaining]

end BitReader

end Downlink
