import Downlink.Proofs.DecodeOutcomes

/-!
# Payloads of just the bytes that a layout needs

A payload has whole bytes, a layout need not. If the layout ends with a byte, a payload of just the
bytes that it needs has no bit to spare, and exact consumption changes nothing (`unpackExact_of_dvd`).
If the layout ends inside a byte, the bits that fill this byte up are left over, and exact
consumption refuses them, though packing has put them there (`unpackExact_of_not_dvd`). Then no
datagram is decoded at all (`decode_ne_ok_of_not_dvd`).

So with exact consumption the frames that were packed for a layout are decoded just when its length
is a number of whole bytes (`exact_consumption_iff`).
-/

namespace Downlink

namespace Layout

variable {l : Layout} {payload : Bytes}

/-! ## Where a layout ends -/

theorem frameBits_eq_iff (l : Layout) : l.frameBits = 8 * l.frameBytes ↔ 8 ∣ l.frameBits := by
  unfold frameBytes Bits.bytesFor
  omega

theorem frameBits_le_of_length (h : l.frameBytes ≤ payload.length) :
    l.frameBits ≤ 8 * payload.length :=
  Nat.le_trans l.frameBits_le (Nat.mul_le_mul_left 8 h)

theorem frameBits_ne_of_not_dvd (h : ¬ 8 ∣ l.frameBits) (bytes : Nat) :
    l.frameBits ≠ 8 * bytes :=
  fun heq => h ⟨bytes, heq⟩

/-! ## Unpacking to the last bit -/

theorem unpackExact_of_dvd (h : 8 ∣ l.frameBits) (hlength : payload.length = l.frameBytes) :
    l.unpackExact payload = l.unpack payload := by
  have hbits : l.frameBits = 8 * payload.length := by
    rw [hlength]
    exact l.frameBits_eq_iff.2 h
  rw [unpackExact_of_eq hbits, unpack_of_le (Nat.le_of_eq hbits)]

theorem unpackExact_of_frameBytes_lt (h : l.frameBytes < payload.length) :
    l.unpackExact payload =
      .error (.trailingBits l.frameBits (8 * payload.length - l.frameBits)) := by
  have := l.frameBits_le
  exact unpackExact_of_lt (by omega)

/-- **A layout that ends inside a byte leaves bits of all its payloads over.** -/
theorem unpackExact_of_not_dvd (h : ¬ 8 ∣ l.frameBits) (hlength : payload.length = l.frameBytes) :
    l.unpackExact payload =
      .error (.trailingBits l.frameBits (8 * l.frameBytes - l.frameBits)) := by
  have hle := frameBits_le_of_length (Nat.le_of_eq hlength.symm)
  rw [← hlength]
  exact unpackExact_of_lt (Nat.lt_of_le_of_ne hle (frameBits_ne_of_not_dvd h _))

theorem unpackExact_eq_unpack_iff (hlength : payload.length = l.frameBytes) :
    l.unpackExact payload = l.unpack payload ↔ 8 ∣ l.frameBits := by
  constructor
  · intro hsame
    refine Decidable.byContradiction fun h => ?_
    have hle := frameBits_le_of_length (Nat.le_of_eq hlength.symm)
    rw [unpackExact_of_not_dvd h hlength, unpack_of_le hle] at hsame
    cases hsame
  · exact fun h => unpackExact_of_dvd h hlength

/-- Three bits: a layout that ends inside its only byte. -/
def threeBits : Layout where
  fields := [.unsigned "level" 3]
  fields_valid := ((fieldsFault?_eq_none_iff [] [.unsigned "level" 3]).1 (by decide)).1
  names_nodup := by decide

end Layout

namespace Decoder

open Layout (frameBits_ne_of_not_dvd frameBits_le_of_length)

variable {d : Decoder}

/-! ## Decoding to the last bit -/

theorem decode_ne_ok_of_not_dvd (hexact : d.exact = true) (h : ¬ 8 ∣ d.layout.frameBits)
    (datagram : Bytes) (record : Record) : d.decode datagram ≠ .ok record := by
  intro hdecode
  obtain ⟨payload, -, -, hbits, -⟩ := (decode_eq_ok_iff d datagram record).1 hdecode
  exact frameBits_ne_of_not_dvd h payload.length (hbits hexact)

/-- **A packed frame is decoded to the last bit just when its layout ends with a byte.** -/
theorem exists_carries_frame_iff {l : Layout} {m : Markers} {c : Cargo} {payload noise : Bytes}
    (hpack : l.pack c = .ok payload)
    (hnoise : m.sync.FirstAt (noise ++ m.sync.toBytes) noise.length)
    (hown : m.terminator.FirstAt (payload ++ m.terminator.toBytes) payload.length)
    (behind : Bytes) :
    (∃ record, decode ⟨l, m, true⟩ (noise ++ m.frame payload ++ behind) = .ok record ∧
      record.Carries l c) ↔ 8 ∣ l.frameBits := by
  rw [← Marker.find?_eq_some_iff_firstAt] at hnoise hown
  have hextract := Markers.extract_frame hnoise (Nat.le_refl _) hown behind
  rw [List.take_length] at hextract
  constructor
  · rintro ⟨record, hdecode, -⟩
    exact Decidable.byContradiction fun h => decode_ne_ok_of_not_dvd rfl h _ record hdecode
  · intro h
    have hbits : l.frameBits = 8 * payload.length := by
      rw [Layout.length_of_pack hpack]
      exact l.frameBits_eq_iff.2 h
    exact ⟨_, decode_exact_of_eq rfl hextract hbits, Layout.carries_of_pack hpack⟩

/-- What exact consumption makes of the payloads and of the frames of a layout. -/
structure ConsumesExactly (l : Layout) (m : Markers) : Prop where
  /-- A payload of just the bytes that the layout needs holds a record, and it is given just when
  the layout ends with a byte. -/
  fitting : ∀ payload, payload.length = l.frameBytes →
    (∃ record, l.unpack payload = .ok record) ∧
    (l.unpackExact payload = l.unpack payload ↔ 8 ∣ l.frameBits)
  /-- Otherwise it is refused for the bits that fill up its last byte. -/
  filled : ¬ 8 ∣ l.frameBits → ∀ payload, payload.length = l.frameBytes →
    l.unpackExact payload = .error (.trailingBits l.frameBits (8 * l.frameBytes - l.frameBits))
  /-- A payload of more bytes is refused in any case. -/
  longer : ∀ payload, l.frameBytes < payload.length →
    l.unpackExact payload = .error (.trailingBits l.frameBits (8 * payload.length - l.frameBits))
  /-- A frame that was packed for the layout, and that does not end too early, is decoded to what
  was packed just when the layout ends with a byte. -/
  frame : ∀ (c : Cargo) (payload noise behind : Bytes), l.pack c = .ok payload →
    m.sync.FirstAt (noise ++ m.sync.toBytes) noise.length →
    m.terminator.FirstAt (payload ++ m.terminator.toBytes) payload.length →
    ((∃ record, decode ⟨l, m, true⟩ (noise ++ m.frame payload ++ behind) = .ok record ∧
      record.Carries l c) ↔ 8 ∣ l.frameBits)
  /-- And if it does not end with a byte, there are no records at all. -/
  never : ¬ 8 ∣ l.frameBits → ∀ datagram record, decode ⟨l, m, true⟩ datagram ≠ .ok record

/-- **Exact consumption gives the records of the payloads that were packed for a layout just when
the layout ends with a byte.** It always refuses the bytes behind the layout; but if the layout ends
inside a byte, it refuses the rest of that byte too, and with it each payload. -/
theorem exact_consumption_iff (l : Layout) (m : Markers) : ConsumesExactly l m where
  fitting := fun _ hlength =>
    ⟨⟨_, Layout.unpack_of_le (frameBits_le_of_length (Nat.le_of_eq hlength.symm))⟩,
      Layout.unpackExact_eq_unpack_iff hlength⟩
  filled := fun h _ hlength => Layout.unpackExact_of_not_dvd h hlength
  longer := fun _ h => Layout.unpackExact_of_frameBytes_lt h
  frame := fun _ _ _ behind hpack hnoise hown => exists_carries_frame_iff hpack hnoise hown behind
  never := fun h => decode_ne_ok_of_not_dvd rfl h

/-- So not every payload that was packed is unpacked to the last bit as it is without exact
consumption: a level of 5 is packed into one byte, and five bits are left over. -/
theorem not_forall_packed_unpackExact_eq :
    ¬ ∀ (l : Layout) (c : Cargo) (payload : Bytes), payload.length = l.frameBytes →
      l.pack c = .ok payload → l.unpackExact payload = l.unpack payload := by
  intro hsame
  have hpack : Layout.threeBits.pack (.engineering [("level", .ofNat 5)]) = .ok [0xa0] := rfl
  have hrecord : Layout.threeBits.unpack [0xa0] = .ok ⟨[("level", .unsigned 5)], 3, 8⟩ := rfl
  have hrefused : Layout.threeBits.unpackExact [0xa0] = .error (.trailingBits 3 5) := rfl
  have := hsame .threeBits _ [0xa0] rfl hpack
  rw [hrecord, hrefused] at this
  cases this

end Decoder

end Downlink
