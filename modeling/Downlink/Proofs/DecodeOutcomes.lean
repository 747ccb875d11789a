import Downlink.Proofs.CheckedDecoding
import Downlink.Proofs.FrameInDatagram
import Downlink.Proofs.FrameSearch

/-!
# What may become of a datagram

Which result a datagram has can be told without decoding it: from where the markers stand, from the
length of the payload between them, and from whether bits may be left over (`Decoder.Classifies`).
There is one condition for each result, and there are no other results (`decode_classified`). None
of the refusals is the layout's fault, since layouts are checked when they are made.
-/

namespace Downlink

namespace Decoder

variable {d : Decoder} {datagram payload : Bytes}

/-! ## The isolated payload -/

theorem exists_isolates_iff (hextract : d.markers.extract datagram = .ok payload)
    {holds : Bytes → Prop} :
    (∃ payload, d.markers.Isolates datagram payload ∧ holds payload) ↔ holds payload := by
  constructor
  · rintro ⟨other, hisolates, hholds⟩
    rw [← Markers.extract_eq_ok_iff_isolates, hextract] at hisolates
    cases hisolates
    exact hholds
  · exact fun hholds => ⟨payload, (Markers.extract_eq_ok_iff_isolates _ _ _).1 hextract, hholds⟩

theorem not_isolates {cause : FramingError} (hextract : d.markers.extract datagram = .error cause)
    (payload : Bytes) : ¬ d.markers.Isolates datagram payload := by
  rw [← Markers.extract_eq_ok_iff_isolates, hextract]
  exact fun h => by cases h

/-! ## One condition for each result -/

theorem exists_insufficientBits_iff (d : Decoder) (datagram : Bytes) :
    (∃ field needed remaining offset, d.decode datagram =
      .error (.unpacking (.insufficientBits field needed remaining offset))) ↔
    ∃ payload, d.markers.Isolates datagram payload ∧ 8 * payload.length < d.layout.frameBits := by
  cases hextract : d.markers.extract datagram with
  | error cause => simp [(decode_eq_framing_iff d _ _).2 hextract, not_isolates hextract]
  | ok payload =>
    rw [exists_isolates_iff hextract]
    rcases decode_of_extract hextract with ⟨hshort, f, offset, -, -, -, hdecode⟩ |
      ⟨-, hlong, hdecode⟩ | ⟨hfits, -, hdecode⟩
    · exact iff_of_true ⟨_, _, _, _, hdecode⟩ hshort
    · simp only [hdecode]
      refine iff_of_false (by simp) (by omega)
    · simp only [hdecode]
      exact iff_of_false (by simp) (by omega)

theorem decode_eq_trailingBits_iff (d : Decoder) (datagram : Bytes) (consumed unread : Nat) :
    d.decode datagram = .error (.unpacking (.trailingBits consumed unread)) ↔
    d.exact = true ∧ ∃ payload, d.markers.Isolates datagram payload ∧
      d.layout.frameBits < 8 * payload.length ∧ consumed = d.layout.frameBits ∧
      unread = 8 * payload.length - d.layout.frameBits := by
  cases hextract : d.markers.extract datagram with
  | error cause => simp [(decode_eq_framing_iff d _ _).2 hextract, not_isolates hextract]
  | ok payload =>
    rw [exists_isolates_iff hextract]
    rcases decode_of_extract hextract with ⟨hshort, f, offset, -, -, -, hdecode⟩ |
      ⟨hexact, hlong, hdecode⟩ | ⟨hfits, hexact, hdecode⟩
    · rw [hdecode]
      exact iff_of_false (by simp) (by omega)
    · rw [hdecode]
      simp only [Except.error.injEq, DecodeError.unpacking.injEq, FieldError.trailingBits.injEq]
      exact ⟨fun h => ⟨hexact, hlong, h.1.symm, h.2.symm⟩, fun h => ⟨h.2.2.1.symm, h.2.2.2.symm⟩⟩
    · rw [hdecode]
      refine iff_of_false (by simp) fun h => ?_
      have := hexact h.1
      omega

theorem decode_eq_ok_iff (d : Decoder) (datagram : Bytes) (record : Record) :
    d.decode datagram = .ok record ↔
    ∃ payload, d.markers.Isolates datagram payload ∧
      d.layout.frameBits ≤ 8 * payload.length ∧
      (d.exact = true → d.layout.frameBits = 8 * payload.length) ∧
      record = d.layout.recordOf payload := by
  cases hextract : d.markers.extract datagram with
  | error cause => simp [(decode_eq_framing_iff d _ _).2 hextract, not_isolates hextract]
  | ok payload =>
    rw [exists_isolates_iff hextract]
    rcases decode_of_extract hextract with ⟨hshort, f, offset, -, -, -, hdecode⟩ |
      ⟨hexact, hlong, hdecode⟩ | ⟨hfits, hexact, hdecode⟩
    · rw [hdecode]
      exact iff_of_false (by simp) (by omega)
    · rw [hdecode]
      refine iff_of_false (by simp) fun h => ?_
      have := h.2.1 hexact
      omega
    · rw [hdecode, Except.ok.injEq]
      exact ⟨fun h => ⟨hfits, hexact, h.symm⟩, fun h => h.2.2.symm⟩

/-! ## The classification -/

/-- A result of decoding is the one that a datagram's markers and the length of its payload ask
for. -/
structure Classifies (d : Decoder) (datagram : Bytes) (result : Except DecodeError Record) :
    Prop where
  /-- Without a sync marker, none is found. -/
  syncNotFound : ∀ marker searched,
    result = .error (.framing (.syncNotFound marker searched)) ↔
      ¬ d.markers.sync.toBytes <:+: datagram ∧
        marker = d.markers.sync ∧ searched = datagram.length
  /-- Without a terminator behind the first sync marker, none is found. -/
  terminatorNotFound : ∀ marker place searched,
    result = .error (.framing (.terminatorNotFound marker place searched)) ↔
      d.markers.sync.FirstAt datagram place ∧
        ¬ d.markers.terminator.toBytes <:+: datagram.drop (place + 2) ∧
        marker = d.markers.terminator ∧ searched = datagram.length - (place + 2)
  /-- A payload that is shorter than the layout has too few bits. -/
  insufficientBits :
    (∃ field needed remaining offset,
      result = .error (.unpacking (.insufficientBits field needed remaining offset))) ↔
    ∃ payload, d.markers.Isolates datagram payload ∧ 8 * payload.length < d.layout.frameBits
  /-- A payload that is longer has too many, if none may be left over. -/
  trailingBits : ∀ consumed unread,
    result = .error (.unpacking (.trailingBits consumed unread)) ↔
      d.exact = true ∧ ∃ payload, d.markers.Isolates datagram payload ∧
        d.layout.frameBits < 8 * payload.length ∧ consumed = d.layout.frameBits ∧
        unread = 8 * payload.length - d.layout.frameBits
  /-- Any other payload gives its record. -/
  record : ∀ record,
    result = .ok record ↔
      ∃ payload, d.markers.Isolates datagram payload ∧
        d.layout.frameBits ≤ 8 * payload.length ∧
        (d.exact = true → d.layout.frameBits = 8 * payload.length) ∧
        record = d.layout.recordOf payload
  /-- There is no other result. -/
  complete : (∃ cause, result = .error (.framing cause)) ∨
    (∃ field needed remaining offset,
      result = .error (.unpacking (.insufficientBits field needed remaining offset))) ∨
    (∃ consumed unread, result = .error (.unpacking (.trailingBits consumed unread))) ∨
    ∃ record, result = .ok record
  /-- No refusal is the layout's fault. -/
  not_fatal : ∀ error, result = .error error → error.isFatal = false

theorem decode_cases (d : Decoder) (datagram : Bytes) :
    (∃ cause, d.decode datagram = .error (.framing cause)) ∨
    (∃ field needed remaining offset, d.decode datagram =
      .error (.unpacking (.insufficientBits field needed remaining offset))) ∨
    (∃ consumed unread,
      d.decode datagram = .error (.unpacking (.trailingBits consumed unread))) ∨
    ∃ record, d.decode datagram = .ok record := by
  cases hextract : d.markers.extract datagram with
  | error cause => exact .inl ⟨cause, (decode_eq_framing_iff d _ _).2 hextract⟩
  | ok payload =>
    rcases decode_of_extract hextract with ⟨-, f, offset, -, -, -, hdecode⟩ |
      ⟨-, -, hdecode⟩ | ⟨-, -, hdecode⟩
    · exact .inr (.inl ⟨_, _, _, _, hdecode⟩)
    · exact .inr (.inr (.inl ⟨_, _, hdecode⟩))
    · exact .inr (.inr (.inr ⟨_, hdecode⟩))

theorem isFatal_of_decode (d : Decoder) (datagram : Bytes) (error : DecodeError)
    (h : d.decode datagram = .error error) : error.isFatal = false := by
  rcases d.decode_cases datagram with ⟨cause, hdecode⟩ | ⟨_, _, _, _, hdecode⟩ |
    ⟨_, _, hdecode⟩ | ⟨_, hdecode⟩
  · obtain rfl := Except.error.inj (h.symm.trans hdecode)
    rfl
  · obtain rfl := Except.error.inj (h.symm.trans hdecode)
    rfl
  · obtain rfl := Except.error.inj (h.symm.trans hdecode)
    rfl
  · rw [h] at hdecode
    cases hdecode

/-- **A datagram's result is told by where the markers stand and how long the payload is.** The
decoder gives that result and no other one, for every layout, for all markers and for all datagrams.
It also gives it if every subtraction, index, slice and shift on the way is checked. -/
theorem decode_classified (d : Decoder) (datagram : Bytes) :
    d.Classifies datagram (d.decode datagram) ∧
      Checked.decode d datagram = some (d.decode datagram) := by
  refine ⟨⟨fun marker searched => ?_, fun marker place searched => ?_,
    d.exists_insufficientBits_iff datagram, d.decode_eq_trailingBits_iff datagram,
    d.decode_eq_ok_iff datagram, d.decode_cases datagram, d.isFatal_of_decode datagram⟩,
    Checked.decode_eq d datagram⟩
  · rw [decode_eq_framing_iff, Markers.extract_eq_syncNotFound_iff]
  · rw [decode_eq_framing_iff, Markers.extract_eq_terminatorNotFound_iff]

end Decoder

end Downlink
