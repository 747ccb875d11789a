import Downlink.Bits.Reader

/-!
# Writing bits

A writer collects bits; finishing it fills the last byte up with zeros.
-/

namespace Downlink

/-- The bits written so far. -/
structure BitWriter where
  bits : Bits
deriving DecidableEq, Repr

/-- More bits asked for than a 64-bit word has. -/
structure OverwideError where
  width : Nat
deriving DecidableEq, Repr

def OverwideError.message (e : OverwideError) : String :=
  "bit width " ++ toString e.width ++ " exceeds 64"

namespace BitWriter

def empty : BitWriter := ⟨[]⟩

/-- The number of bits written. -/
def length (w : BitWriter) : Nat :=
  w.bits.length

/-- Appends the `width` low bits of a two's complement integer. -/
def put (w : BitWriter) (value : Int) (width : Nat) : BitWriter :=
  ⟨w.bits ++ Bits.ofInt width value⟩

/-- Appends at most 64 low bits of an integer; a greater width is refused. -/
def push (w : BitWriter) (value : Int) (width : Nat) : Except OverwideError BitWriter :=
  if maxFieldWidth < width then .error ⟨width⟩ else .ok (w.put value width)

/-- The written bits as bytes. -/
def finish (w : BitWriter) : Bytes :=
  w.bits.toBytes

@[simp] theorem bits_put (w : BitWriter) (value : Int) (width : Nat) :
    (w.put value width).bits = w.bits ++ Bits.ofInt width value := rfl

@[simp] theorem length_put (w : BitWriter) (value : Int) (width : Nat) :
    (w.put value width).length = w.length + width := by
  simp [length]

end BitWriter

end Downlink
