import Downlink.Error

/-!
# Frames

A payload travels between a sync marker and a terminator. Extraction takes the first sync marker
in a datagram and the first terminator behind it; noise in front, bytes behind, and a terminator
before the sync marker do not matter. A sync marker inside noise is not tried again.

* `extract_eq_ok_iff`: which payload is found.
-/

namespace Downlink

namespace Markers

def frame (m : Markers) (payload : Bytes) : Bytes :=
  m.sync.toBytes ++ payload ++ m.terminator.toBytes

/-- The payload of the first frame in a datagram. -/
def extract (m : Markers) (datagram : Bytes) : Except FramingError Bytes :=
  match m.sync.find? datagram with
  | none => .error (.syncNotFound m.sync datagram.length)
  | some syncOffset =>
    let rest := datagram.drop (syncOffset + 2)
    match m.terminator.find? rest with
    | none => .error (.terminatorNotFound m.terminator syncOffset rest.length)
    | some length => .ok (rest.take length)

/-- A payload is found where the first sync marker and the first terminator after it are. -/
theorem extract_eq_ok_iff (m : Markers) (datagram payload : Bytes) :
    m.extract datagram = .ok payload ↔
      ∃ syncOffset length, m.sync.find? datagram = some syncOffset ∧
        m.terminator.find? (datagram.drop (syncOffset + 2)) = some length ∧
        payload = (datagram.drop (syncOffset + 2)).take length := by
  unfold extract
  cases m.sync.find? datagram with
  | none => simp
  | some syncOffset =>
    cases h : m.terminator.find? (datagram.drop (syncOffset + 2)) with
    | none => simp [h]
    | some length => simp [h, eq_comm]

end Markers

end Downlink
