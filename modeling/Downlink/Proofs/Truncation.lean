import Downlink.Listener
import Downlink.Proofs.FrameInDatagram
import Downlink.Proofs.FrameSearch

/-!
# Datagrams that are cut off

A listener keeps no more of a datagram than fits in its buffer. If a frame is found in what was
kept, the same frame is found in the whole datagram, so a record is never changed by cutting, nor is
the refusal of a payload (`decode_append`). If none is found, that may be because the frame was cut
off, and it is all that cutting can do (`decode_take`).
-/

namespace Downlink

namespace Decoder

variable {d : Decoder} {datagram payload : Bytes}

theorem decode_append (hextract : d.markers.extract datagram = .ok payload) (more : Bytes) :
    d.decode (datagram ++ more) = d.decode datagram := by
  have hisolates := (Markers.extract_eq_ok_iff_isolates _ _ _).1 hextract
  have hmore := (Markers.extract_eq_ok_iff_isolates _ _ _).2 (hisolates.append more)
  simp only [decode, hextract, hmore]

/-- **What was cut off finds no frame, or gives what the whole datagram gives.** -/
theorem decode_take_cases (d : Decoder) (datagram : Bytes) (n : Nat) :
    d.decode (datagram.take n) = d.decode datagram ∨
      ∃ cause, d.markers.extract (datagram.take n) = .error cause ∧
        d.decode (datagram.take n) = .error (.framing cause) := by
  cases hextract : d.markers.extract (datagram.take n) with
  | ok payload =>
    left
    have happend := decode_append hextract (datagram.drop n)
    rw [List.take_append_drop] at happend
    exact happend.symm
  | error cause =>
    right
    refine ⟨cause, rfl, ?_⟩
    simp only [decode, hextract]

/-- **Cutting off a datagram suppresses a record but never changes one.** A record or the refusal of
a payload is that of the whole datagram, and a sync marker that was found is found at the same
place. So all that a listener can make of a result by cutting is a frame that is not found. -/
theorem decode_take (d : Decoder) (datagram : Bytes) (n : Nat) :
    (∀ record, d.decode (datagram.take n) = .ok record → d.decode datagram = .ok record) ∧
    (∀ cause, d.decode (datagram.take n) = .error (.unpacking cause) →
      d.decode datagram = .error (.unpacking cause)) ∧
    (∀ marker place searched,
      d.decode (datagram.take n) = .error (.framing (.terminatorNotFound marker place searched)) →
      (∀ marker' searched',
        d.decode datagram ≠ .error (.framing (.syncNotFound marker' searched'))) ∧
      ∀ marker' place' searched',
        d.decode datagram = .error (.framing (.terminatorNotFound marker' place' searched')) →
        place' = place) ∧
    ∀ listener : Listener, d.decode (listener.keep datagram) = d.decode datagram ∨
      ∃ cause, d.decode (listener.keep datagram) = .error (.framing cause) := by
  refine ⟨fun record hrecord => ?_, fun cause hcause => ?_, fun marker place searched hplace => ?_,
    fun listener => ?_⟩
  · rcases d.decode_take_cases datagram n with hsame | ⟨cause, -, hframing⟩
    · rw [← hsame, hrecord]
    · rw [hrecord] at hframing
      cases hframing
  · rcases d.decode_take_cases datagram n with hsame | ⟨cause, -, hframing⟩
    · rw [← hsame, hcause]
    · rw [hcause] at hframing
      cases hframing
  · have hkept := (Markers.extract_eq_terminatorNotFound_iff _ _ _ _ _).1
      ((decode_eq_framing_iff _ _ _).1 hplace)
    have hsync := hkept.1.append (datagram.drop n)
    rw [List.take_append_drop] at hsync
    constructor
    · intro marker' searched' hnone
      have hnowhere := (Markers.extract_eq_syncNotFound_iff _ _ _ _).1
        ((decode_eq_framing_iff _ _ _).1 hnone)
      exact hnowhere.1 hsync.isInfix
    · intro marker' place' searched' hplace'
      have hwhole := (Markers.extract_eq_terminatorNotFound_iff _ _ _ _ _).1
        ((decode_eq_framing_iff _ _ _).1 hplace')
      exact hwhole.1.unique hsync
  · rcases d.decode_take_cases datagram listener.buffer with hsame | ⟨cause, -, hframing⟩
    · exact .inl hsame
    · exact .inr ⟨cause, hframing⟩

/-- A frame that is kept whole, and one of which the last byte is cut off. -/
theorem decode_take_octet :
    decode ⟨.octet, .flight, true⟩ [0x5e, 0xd5, 7, 0x0d, 0x0a, 0x5e] =
      .ok ⟨[("level", .unsigned 7)], 8, 8⟩ ∧
    decode ⟨.octet, .flight, true⟩ [0x5e, 0xd5, 7, 0x0d] =
      .error (.framing (.terminatorNotFound ⟨0x0d, 0x0a⟩ 0 2)) ∧
    ∀ marker searched, decode ⟨.octet, .flight, true⟩ [0x5e, 0xd5, 7, 0x0d, 0x0a, 0x5e] ≠
      .error (.framing (.syncNotFound marker searched)) :=
  have whole := decode_take ⟨.octet, .flight, true⟩ [0x5e, 0xd5, 7, 0x0d, 0x0a, 0x5e] 5
  have torn := decode_take ⟨.octet, .flight, true⟩ [0x5e, 0xd5, 7, 0x0d, 0x0a, 0x5e] 4
  ⟨whole.1 _ rfl, rfl, (torn.2.2.1 _ _ _ rfl).1⟩

end Decoder

end Downlink
