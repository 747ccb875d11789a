import Downlink.Capture

/-!
# Writing captures

A writer begins with the magic and appends one datagram after another. Times never decrease: an
earlier time counts as that of the entry in front of it, and a time past the last that the format
has counts as that last one. Too long a datagram is refused and changes nothing.

* `bytes_eq_toBytes`: what has been written is the capture of the entries taken so far.
-/

namespace Downlink.Capture

/-- What has been written, and the time of the last entry. -/
structure Writer where
  bytes : Bytes
  entryCount : Nat
  lastTime : UInt64
deriving DecidableEq, Repr

namespace Writer

def empty : Writer := ⟨magic, 0, 0⟩

def maxTime : Nat := UInt64.size - 1

def clamp (w : Writer) (nanoseconds : Nat) : UInt64 :=
  UInt64.ofNat (max (min nanoseconds maxTime) w.lastTime.toNat)

def put (w : Writer) (e : Entry) : Writer :=
  ⟨w.bytes ++ e.toBytes, w.entryCount + 1, e.time⟩

/-- The error over a datagram of some length. -/
def tooLong (length : Nat) : LinkError :=
  .config "capture" ("datagram of " ++ toString length ++ " bytes exceeds " ++ toString maxDatagram
    ++ " byte limit")

/-- Appends a datagram, or refuses it for its length. -/
def append (w : Writer) (nanoseconds : Nat) (datagram : Bytes) : Except LinkError Writer :=
  if maxDatagram < datagram.length then .error (tooLong datagram.length)
  else .ok (w.put ⟨w.clamp nanoseconds, datagram⟩)

def putAll (w : Writer) (entries : List Entry) : Writer :=
  entries.foldl put w

theorem bytes_putAll (w : Writer) (entries : List Entry) :
    (w.putAll entries).bytes = w.bytes ++ entries.flatMap Entry.toBytes := by
  induction entries generalizing w with
  | nil => simp [putAll]
  | cons e entries ih =>
    have : w.putAll (e :: entries) = (w.put e).putAll entries := rfl
    rw [this, ih]
    simp [put]

theorem bytes_eq_toBytes (entries : List Entry) :
    (empty.putAll entries).bytes = toBytes entries :=
  bytes_putAll empty entries

end Writer

end Downlink.Capture
