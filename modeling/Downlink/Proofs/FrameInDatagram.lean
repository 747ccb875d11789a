import Downlink.Decoder
import Downlink.Proofs.MarkerSearch
import Downlink.Proofs.PayloadRoundTrip

/-!
# What becomes of a frame in a datagram

A packed payload is framed, put behind noise, and decoded.

If the noise does not bring forth a sync marker of its own, the decoder isolates the payload up to
its first terminator (`extract_frame`). A terminator that comes too early, be it inside the payload
or across its end, cuts off at least one whole byte; a packed payload has less than one byte to
spare, so what is left is always too short (`decode_frame`).

If the noise does bring forth a sync marker, the decoder isolates more than the payload. Nothing but
exact consumption refuses that (`decode_frame_after_false_sync`).
-/

namespace Downlink

/-! ## Extraction -/

namespace Markers

variable {m : Markers} {noise : Bytes}

/-- **A frame behind harmless noise is isolated up to its first terminator.** -/
theorem extract_frame (hnoise : m.sync.find? (noise ++ m.sync.toBytes) = some noise.length)
    {payload : Bytes} {length : Nat} (hle : length ≤ payload.length)
    (hlength : m.terminator.find? (payload ++ m.terminator.toBytes) = some length)
    (behind : Bytes) :
    m.extract (noise ++ m.frame payload ++ behind) = .ok (payload.take length) := by
  have hdatagram : noise ++ m.frame payload ++ behind =
      noise ++ m.sync.toBytes ++ (payload ++ m.terminator.toBytes ++ behind) := by
    simp [frame]
  have hrest : (noise ++ m.frame payload ++ behind).drop (noise.length + 2) =
      payload ++ m.terminator.toBytes ++ behind := by
    rw [hdatagram, List.drop_left' (by simp [Marker.toBytes])]
  rw [extract_eq_ok_iff]
  refine ⟨noise.length, length, ?_, ?_, ?_⟩
  · rw [hdatagram]
    exact Marker.find?_append hnoise _
  · rw [hrest]
    exact Marker.find?_append hlength behind
  · rw [hrest, List.append_assoc, List.take_append_of_le_length hle]

/-- A sync marker that begins in the noise takes part of the frame with it. -/
theorem extract_frame_after_false_sync {payload : Bytes} {place : Nat}
    (hsync : m.sync.find? (noise ++ m.frame payload) = some place) (hfalse : place < noise.length)
    (hend : m.terminator.find? ((noise ++ m.frame payload).drop (place + 2)) =
      some (noise.length + payload.length - place)) :
    m.extract (noise ++ m.frame payload) =
      .ok ((noise ++ m.sync.toBytes ++ payload).drop (place + 2)) := by
  have hdatagram : noise ++ m.frame payload =
      noise ++ m.sync.toBytes ++ payload ++ m.terminator.toBytes := by
    simp [frame]
  have hlength : (noise ++ m.sync.toBytes ++ payload).length =
      noise.length + 2 + payload.length := by
    simp only [List.length_append, Marker.toBytes, List.length_cons, List.length_nil]
  have hbehind : place + 2 ≤ (noise ++ m.sync.toBytes ++ payload).length := by
    omega
  rw [extract_eq_ok_iff]
  refine ⟨place, _, hsync, hend, Eq.symm ?_⟩
  rw [hdatagram, List.drop_append_of_le_length hbehind]
  apply List.take_left'
  rw [List.length_drop, hlength]
  omega

end Markers

/-! ## Decoding what was isolated -/

namespace Layout

/-- One unsigned byte: the smallest layout whose payload has no bit to spare. -/
def octet : Layout where
  fields := [.unsigned "level" 8]
  fields_valid := ((fieldsFault?_eq_none_iff [] [.unsigned "level" 8]).1 (by decide)).1
  names_nodup := by decide

end Layout

namespace Decoder

variable {d : Decoder} {datagram payload : Bytes}

theorem decode_eq_framing_iff (d : Decoder) (datagram : Bytes) (cause : FramingError) :
    d.decode datagram = .error (.framing cause) ↔ d.markers.extract datagram = .error cause := by
  cases hextract : d.markers.extract datagram with
  | error other => simp [decode, hextract]
  | ok payload =>
    cases hread : if d.exact then d.layout.unpackExact payload else d.layout.unpack payload <;>
      simp [decode, hextract, hread]

theorem exists_decode_of_lt (hextract : d.markers.extract datagram = .ok payload)
    (h : 8 * payload.length < d.layout.frameBits) :
    ∃ f offset, (f, offset) ∈ d.layout.offsets ∧
      offset ≤ 8 * payload.length ∧ 8 * payload.length < offset + f.width ∧
      d.decode datagram = .error (.unpacking
        (.insufficientBits f.name f.width (8 * payload.length - offset) offset)) := by
  obtain ⟨f, offset, hmem, hle, hlt, hunpack⟩ := Layout.unpack_of_lt h
  refine ⟨f, offset, hmem, hle, hlt, ?_⟩
  cases hexact : d.exact with
  | true => simp [decode, hextract, hexact, Layout.unpackExact_of_error hunpack]
  | false => simp [decode, hextract, hexact, hunpack]

theorem decode_of_lt (hextract : d.markers.extract datagram = .ok payload)
    (h : 8 * payload.length < d.layout.frameBits) :
    ∃ field needed remaining offset, d.decode datagram =
      .error (.unpacking (.insufficientBits field needed remaining offset)) := by
  obtain ⟨f, offset, -, -, -, hdecode⟩ := exists_decode_of_lt hextract h
  exact ⟨_, _, _, _, hdecode⟩

theorem decode_of_le (hexact : d.exact = false)
    (hextract : d.markers.extract datagram = .ok payload)
    (h : d.layout.frameBits ≤ 8 * payload.length) :
    d.decode datagram = .ok (d.layout.recordOf payload) := by
  simp [decode, hextract, hexact, Layout.unpack_of_le h]

theorem decode_exact_of_lt (hexact : d.exact = true)
    (hextract : d.markers.extract datagram = .ok payload)
    (h : d.layout.frameBits < 8 * payload.length) :
    d.decode datagram = .error (.unpacking
      (.trailingBits d.layout.frameBits (8 * payload.length - d.layout.frameBits))) := by
  simp [decode, hextract, hexact, Layout.unpackExact_of_lt h]

theorem decode_exact_of_eq (hexact : d.exact = true)
    (hextract : d.markers.extract datagram = .ok payload)
    (h : d.layout.frameBits = 8 * payload.length) :
    d.decode datagram = .ok (d.layout.recordOf payload) := by
  simp [decode, hextract, hexact, Layout.unpackExact_of_eq h]

/-- **The length of an isolated payload decides what becomes of it.** -/
theorem decode_of_extract (hextract : d.markers.extract datagram = .ok payload) :
    (8 * payload.length < d.layout.frameBits ∧ ∃ f offset, (f, offset) ∈ d.layout.offsets ∧
        offset ≤ 8 * payload.length ∧ 8 * payload.length < offset + f.width ∧
        d.decode datagram = .error (.unpacking
          (.insufficientBits f.name f.width (8 * payload.length - offset) offset))) ∨
    (d.exact = true ∧ d.layout.frameBits < 8 * payload.length ∧
      d.decode datagram = .error (.unpacking
        (.trailingBits d.layout.frameBits (8 * payload.length - d.layout.frameBits)))) ∨
    (d.layout.frameBits ≤ 8 * payload.length ∧
      (d.exact = true → d.layout.frameBits = 8 * payload.length) ∧
      d.decode datagram = .ok (d.layout.recordOf payload)) := by
  rcases Nat.lt_trichotomy d.layout.frameBits (8 * payload.length) with hlong | heq | hshort
  · cases hexact : d.exact with
    | true => exact .inr (.inl ⟨rfl, hlong, decode_exact_of_lt hexact hextract hlong⟩)
    | false =>
      have hle := Nat.le_of_lt hlong
      exact .inr (.inr ⟨hle, by simp, decode_of_le hexact hextract hle⟩)
  · refine .inr (.inr ⟨Nat.le_of_eq heq, fun _ => heq, ?_⟩)
    cases hexact : d.exact with
    | true => exact decode_exact_of_eq hexact hextract heq
    | false => exact decode_of_le hexact hextract (Nat.le_of_eq heq)
  · exact .inl ⟨hshort, exists_decode_of_lt hextract hshort⟩

/-! ## Frames behind harmless noise -/

/-- **No silent corruption.** A packed payload that is framed behind noise without a sync marker
decodes to a record that gives back what was packed, if the first terminator is the frame's own. If
a terminator comes earlier, the payload is too short, and there is no record at all. -/
theorem decode_frame (l : Layout) (m : Markers) (c : Cargo) (payload noise behind : Bytes)
    (hpack : l.pack c = .ok payload)
    (hnoise : m.sync.find? (noise ++ m.sync.toBytes) = some noise.length) :
    (m.terminator.find? (payload ++ m.terminator.toBytes) = some payload.length →
      ∃ record, decode ⟨l, m, false⟩ (noise ++ m.frame payload ++ behind) = .ok record ∧
        record.Carries l c) ∧
    (m.terminator.find? (payload ++ m.terminator.toBytes) ≠ some payload.length →
      ∃ field needed remaining offset,
        decode ⟨l, m, false⟩ (noise ++ m.frame payload ++ behind) =
          .error (.unpacking (.insufficientBits field needed remaining offset))) := by
  have hbytes : payload.length = l.frameBytes := Layout.length_of_pack hpack
  obtain ⟨length, hle, hlength⟩ := m.terminator.exists_find?_append_toBytes payload
  have hextract := Markers.extract_frame hnoise hle hlength behind
  constructor
  · intro hown
    obtain rfl : length = payload.length := by
      rw [hlength] at hown
      exact Option.some.inj hown
    rw [List.take_length] at hextract
    have hfits : l.frameBits ≤ 8 * payload.length := by
      rw [hbytes]
      exact l.frameBits_le
    exact ⟨_, decode_of_le rfl hextract hfits, Layout.carries_of_pack hpack⟩
  · intro hearly
    have hlt : length < payload.length := by
      rcases Nat.lt_or_eq_of_le hle with h | rfl
      · exact h
      · exact absurd hlength hearly
    refine decode_of_lt hextract ?_
    have := l.frameBytes_lt
    rw [List.length_take]
    show 8 * min length payload.length < l.frameBits
    omega

/-- Markers of two equal bytes, a sync byte in the noise, and a payload that ends like a terminator
begins: the terminator is found across the payload's end, and there is no record. -/
theorem decode_frame_octet :
    Layout.octet.pack (.engineering [("level", .ofNat 0xaa)]) = .ok [0xaa] ∧
    Marker.find? ⟨0x7e, 0x7e⟩ [0x7e, 0x01, 0x7e, 0x7e] = some 2 ∧
    Marker.find? ⟨0xaa, 0xaa⟩ [0xaa, 0xaa, 0xaa] ≠ some 1 ∧
    ∃ field needed remaining offset,
      decode ⟨.octet, ⟨⟨0x7e, 0x7e⟩, ⟨0xaa, 0xaa⟩⟩, false⟩
          [0x7e, 0x01, 0x7e, 0x7e, 0xaa, 0xaa, 0xaa, 0x55] =
        .error (.unpacking (.insufficientBits field needed remaining offset)) :=
  ⟨rfl, rfl, by decide,
    (decode_frame .octet ⟨⟨0x7e, 0x7e⟩, ⟨0xaa, 0xaa⟩⟩ (.engineering [("level", .ofNat 0xaa)])
      [0xaa] [0x7e, 0x01] [0x55] rfl rfl).2 (by decide)⟩

/-! ## Frames behind a false sync marker -/

/-- **A false sync marker is refused by exact consumption and by nothing else.** If a sync marker
begins in the noise and the next terminator is the frame's own, more than a payload is isolated. An
exact decoder refuses it for its trailing bits; any other one makes a record of what stands behind
the false marker. -/
theorem decode_frame_after_false_sync (d : Decoder) (c : Cargo) (payload noise : Bytes)
    (place : Nat) (hpack : d.layout.pack c = .ok payload)
    (hsync : d.markers.sync.find? (noise ++ d.markers.frame payload) = some place)
    (hfalse : place < noise.length)
    (hend : d.markers.terminator.find? ((noise ++ d.markers.frame payload).drop (place + 2)) =
      some (noise.length + payload.length - place)) :
    ((∃ error, d.decode (noise ++ d.markers.frame payload) = .error error) ↔ d.exact = true) ∧
    d.decode (noise ++ d.markers.frame payload) =
      let isolated := (noise ++ d.markers.sync.toBytes ++ payload).drop (place + 2)
      if d.exact then
        .error (.unpacking
          (.trailingBits d.layout.frameBits (8 * isolated.length - d.layout.frameBits)))
      else .ok (d.layout.recordOf isolated) := by
  have hextract := Markers.extract_frame_after_false_sync hsync hfalse hend
  have hlong : d.layout.frameBits <
      8 * ((noise ++ d.markers.sync.toBytes ++ payload).drop (place + 2)).length := by
    have hbytes : payload.length = d.layout.frameBytes := Layout.length_of_pack hpack
    have := d.layout.frameBits_le
    simp only [List.length_drop, List.length_append, Marker.toBytes, List.length_cons,
      List.length_nil]
    omega
  cases hexact : d.exact with
  | true =>
    rw [decode_exact_of_lt hexact hextract hlong]
    simp
  | false =>
    rw [decode_of_le hexact hextract (Nat.le_of_lt hlong)]
    simp

/-- A level of 1 behind a sync marker in the noise is taken for a level of 94. -/
theorem decode_frame_after_false_sync_octet :
    Layout.octet.pack (.engineering [("level", .ofNat 1)]) = .ok [0x01] ∧
    Markers.flight.sync.find? [0x5e, 0xd5, 0x5e, 0xd5, 0x01, 0x0d, 0x0a] = some 0 ∧
    Markers.flight.terminator.find? [0x5e, 0xd5, 0x01, 0x0d, 0x0a] = some 3 ∧
    decode ⟨.octet, .flight, false⟩ [0x5e, 0xd5, 0x5e, 0xd5, 0x01, 0x0d, 0x0a] =
      .ok ⟨[("level", .unsigned 94)], 8, 24⟩ :=
  ⟨rfl, rfl, rfl,
    (decode_frame_after_false_sync ⟨.octet, .flight, false⟩ (.engineering [("level", .ofNat 1)])
      [0x01] [0x5e, 0xd5] 0 rfl rfl (by decide) rfl).2⟩

/-- So a frame behind a false sync marker is not always refused. -/
theorem not_forall_refused_after_false_sync :
    ¬ ∀ (d : Decoder) (c : Cargo) (payload noise : Bytes) (place : Nat),
      d.layout.pack c = .ok payload →
      d.markers.sync.find? (noise ++ d.markers.frame payload) = some place →
      place < noise.length →
      d.markers.terminator.find? ((noise ++ d.markers.frame payload).drop (place + 2)) =
        some (noise.length + payload.length - place) →
      ∃ error, d.decode (noise ++ d.markers.frame payload) = .error error := by
  intro hrefused
  obtain ⟨error, herror⟩ := hrefused ⟨.octet, .flight, false⟩ (.engineering [("level", .ofNat 1)])
    [0x01] [0x5e, 0xd5] 0 rfl rfl (by decide) rfl
  have hrecord : decode ⟨.octet, .flight, false⟩ [0x5e, 0xd5, 0x5e, 0xd5, 0x01, 0x0d, 0x0a] =
      .ok ⟨[("level", .unsigned 94)], 8, 24⟩ := rfl
  have := hrecord.symm.trans herror
  simp at this

end Decoder

end Downlink
