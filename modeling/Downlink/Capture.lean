import Downlink.Error

/-!
# Captures

A capture is eight bytes of magic and then one entry a datagram: the time since the start in
nanoseconds (eight bytes), the length (four bytes) and the datagram. Numbers have their lowest byte
first.

* `natOfLittleEndian_littleEndian`: a number reads back.
* `Entry.length_toBytes`: how long an entry is.
-/

namespace Downlink

/-! ## Numbers -/

/-- A number in `count` bytes, the lowest first. -/
def littleEndian : Nat → Nat → Bytes
  | 0, _ => []
  | count + 1, n => UInt8.ofNat n :: littleEndian count (n / 256)

/-- The number that bytes spell, the lowest first. -/
def natOfLittleEndian : Bytes → Nat
  | [] => 0
  | b :: rest => b.toNat + 256 * natOfLittleEndian rest

@[simp] theorem length_littleEndian (count n : Nat) : (littleEndian count n).length = count := by
  induction count generalizing n with
  | zero => rfl
  | succ count ih => simp [littleEndian, ih]

theorem natOfLittleEndian_littleEndian (count n : Nat) :
    natOfLittleEndian (littleEndian count n) = n % 256 ^ count := by
  induction count generalizing n with
  | zero => simp [littleEndian, natOfLittleEndian, Nat.mod_one]
  | succ count ih =>
    have split : n % 256 ^ (count + 1) = n % 256 + 256 * (n / 256 % 256 ^ count) := by
      rw [Nat.pow_add_one, Nat.mul_comm, Nat.mod_mul]
    rw [split, littleEndian, natOfLittleEndian, ih, UInt8.toNat_ofNat']

theorem natOfLittleEndian_lt (bytes : Bytes) :
    natOfLittleEndian bytes < 256 ^ bytes.length := by
  induction bytes with
  | nil => simp [natOfLittleEndian]
  | cons b rest ih =>
    have := b.toNat_lt
    simp only [natOfLittleEndian, List.length_cons, Nat.pow_succ]
    omega

theorem littleEndian_natOfLittleEndian (bytes : Bytes) :
    littleEndian bytes.length (natOfLittleEndian bytes) = bytes := by
  induction bytes with
  | nil => rfl
  | cons b rest ih =>
    have hb := b.toNat_lt
    have hdiv : (b.toNat + 256 * natOfLittleEndian rest) / 256 = natOfLittleEndian rest := by omega
    have hmod : UInt8.ofNat (b.toNat + 256 * natOfLittleEndian rest) = b := by
      apply UInt8.toNat_inj.1
      rw [UInt8.toNat_ofNat']
      omega
    simp only [List.length_cons, natOfLittleEndian, littleEndian, hdiv, hmod, ih]

/-! ## The format -/

namespace Capture

def magic : Bytes :=
  [0x47, 0x4c, 0x43, 0x41, 0x50, 0x76, 0x31, 0x00]

def maxDatagram : Nat := 65535

structure Entry where
  /-- Nanoseconds since the start of the capture. -/
  time : UInt64
  datagram : Bytes
deriving DecidableEq, Repr

namespace Entry

def toBytes (e : Entry) : Bytes :=
  littleEndian 8 e.time.toNat ++ littleEndian 4 e.datagram.length ++ e.datagram

theorem length_toBytes (e : Entry) : e.toBytes.length = 12 + e.datagram.length := by
  simp [toBytes]; omega

end Entry

def toBytes (entries : List Entry) : Bytes :=
  magic ++ entries.flatMap Entry.toBytes

/-- The length that the bytes of an entry declare for its datagram. -/
def declaredLength (bytes : Bytes) : Nat :=
  natOfLittleEndian ((bytes.drop 8).take 4)

end Capture

end Downlink
