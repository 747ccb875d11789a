import Downlink.Proofs.LayoutPlaces
import Downlink.Proofs.PayloadRoundTrip

/-!
# Packing what was read

A payload that is long enough gives a record whatever its bits are, and the record holds all of the
reported fields' bits: two payloads give the same values just when they agree in these
(`entries_recordOf_eq_iff`). So packing the record again never fails, and what comes out is the
payload cut to the layout's bytes, with zeros for all bits that are not of a reported field
(`packRecord_recordOf`).
-/

namespace Downlink

namespace Bits

theorem ofInt_zero (width : Nat) : ofInt width 0 = List.replicate width false := by
  have hzero : ∀ width, ofNat width 0 = List.replicate width false := by
    intro width
    induction width with
    | zero => rfl
    | succ width ih => rw [ofNat, ih, Nat.zero_testBit, List.replicate_succ]
  rw [ofInt, Int.zero_emod]
  exact hzero width

end Bits

namespace Layout

variable {l : Layout} {payload packed other : Bytes} {place : Field × Nat}

/-! ## Values and bits -/

/-- The bits of a payload at a place. -/
def slice (payload : Bytes) (place : Field × Nat) : Bits :=
  ((Bits.ofBytes payload).drop place.2).take place.1.width

theorem entries_recordOf (l : Layout) (payload : Bytes) :
    (l.recordOf payload).entries = (l.offsets.filter (!·.1.reserved)).map fun place =>
      (place.1.name, .ofRaw place.1 (place.1.rawOfBits (slice payload place))) := rfl

theorem length_slice (h : l.frameBits ≤ 8 * payload.length) (hplace : place ∈ l.offsets) :
    (slice payload place).length = place.1.width := by
  have hbounds := bounds_of_mem_offsetsFrom hplace
  unfold frameBits at h
  simp only [slice, List.length_take, List.length_drop, Bits.length_ofBytes]
  omega

theorem valid_of_mem_offsets (hplace : place ∈ l.offsets) : place.1.Valid := by
  refine l.fields_valid place.1 ?_
  rw [← map_fst_offsetsFrom 0 l.fields]
  exact List.mem_map_of_mem hplace

theorem raw_ofRaw_slice (h : l.frameBits ≤ 8 * payload.length) (hplace : place ∈ l.offsets) :
    (Value.ofRaw place.1 (place.1.rawOfBits (slice payload place))).raw =
      place.1.rawOfBits (slice payload place) :=
  Value.raw_ofRaw (valid_of_mem_offsets hplace)
    (Field.holds_rawOfBits (valid_of_mem_offsets hplace) (length_slice h hplace))

/-- **Two payloads give the same values just when they agree in all bits of reported fields.** -/
theorem entries_recordOf_eq_iff (h : l.frameBits ≤ 8 * payload.length)
    (hother : l.frameBits ≤ 8 * other.length) :
    (l.recordOf payload).entries = (l.recordOf other).entries ↔
      ∀ i, l.HasBit false i → (Bits.ofBytes payload)[i]? = (Bits.ofBytes other)[i]? := by
  rw [entries_recordOf, entries_recordOf, List.map_inj_left]
  constructor
  · rintro hentries i ⟨place, hplace, hreserved, hcovers⟩
    have hentry := hentries place (List.mem_filter.2 ⟨hplace, by simp [hreserved]⟩)
    have hraw := congrArg (fun entry => entry.2.raw) hentry
    simp only [raw_ofRaw_slice h hplace, raw_ofRaw_slice hother hplace] at hraw
    have hslice : slice payload place = slice other place := by
      rw [← Field.ofInt_rawOfBits (length_slice h hplace), hraw,
        Field.ofInt_rawOfBits (length_slice hother hplace)]
    exact (take_drop_eq_iff _ _ place).1 hslice i hcovers
  · intro hbits place hplace
    obtain ⟨hmem, hreserved⟩ := List.mem_filter.1 hplace
    have hslice : slice payload place = slice other place := by
      refine (take_drop_eq_iff _ _ place).2 fun i hi => hbits i ⟨place, hmem, ?_, hi⟩
      simpa using hreserved
    rw [hslice]

theorem get?_recordOf (payload : Bytes) (hplace : place ∈ l.offsets)
    (hreserved : place.1.reserved = false) :
    (l.recordOf payload).get? place.1.name =
      some (.ofRaw place.1 (place.1.rawOfBits (slice payload place))) := by
  have hnodup : ((l.offsets.filter (!·.1.reserved)).map (·.1.name)).Nodup := by
    have hnames := l.names_nodup
    rw [← map_fst_offsetsFrom 0 l.fields, List.map_map] at hnames
    exact hnames.sublist (List.filter_sublist.map _)
  have hmem : place ∈ l.offsets.filter (!·.1.reserved) :=
    List.mem_filter.2 ⟨hplace, by simp [hreserved]⟩
  rw [Record.get?, entries_recordOf]
  exact lookup_map_of_mem hnodup
    (fun place => .ofRaw place.1 (place.1.rawOfBits (slice payload place))) hmem

/-! ## Packing again -/

/-- The integer that a record has for a field. -/
def rawIn (record : Record) (f : Field) : Int :=
  ((Cargo.decoded record).raw? f).getD 0

theorem raw?_recordOf (h : l.frameBits ≤ 8 * payload.length) (hplace : place ∈ l.offsets)
    (hreserved : place.1.reserved = false) :
    (Cargo.decoded (l.recordOf payload)).raw? place.1 =
      some (place.1.rawOfBits (slice payload place)) := by
  rw [Cargo.raw?, get?_recordOf payload hplace hreserved, Option.map_some,
    raw_ofRaw_slice h hplace]

theorem packRecord_recordOf (h : l.frameBits ≤ 8 * payload.length) :
    l.packRecord (l.recordOf payload) =
      .ok (bitsOf (rawIn (l.recordOf payload)) l.fields).toBytes := by
  have hraw : ∀ f ∈ l.fields, f.reserved = false →
      (Cargo.decoded (l.recordOf payload)).rawOf f = .ok (rawIn (l.recordOf payload) f) := by
    intro f hf hreserved
    rw [← map_fst_offsetsFrom 0 l.fields] at hf
    obtain ⟨place, hplace, rfl⟩ := List.mem_map.1 hf
    have hraw := raw?_recordOf h hplace hreserved
    rw [Cargo.rawOf_eq_ok_iff, rawIn, hraw]
    exact ⟨rfl, Field.holds_rawOfBits (valid_of_mem_offsets hplace) (length_slice h hplace)⟩
  show l.packRaw (Cargo.decoded (l.recordOf payload)).rawOf = _
  rw [packRaw, writeFields_eq_ok hraw]
  rfl

theorem fieldBits_rawIn (h : l.frameBits ≤ 8 * payload.length) (hplace : place ∈ l.offsets) :
    fieldBits (rawIn (l.recordOf payload)) place.1 =
      if place.1.reserved then List.replicate place.1.width false else slice payload place := by
  unfold fieldBits
  cases hreserved : place.1.reserved with
  | true => exact Bits.ofInt_zero place.1.width
  | false =>
    rw [rawIn, raw?_recordOf h hplace hreserved]
    exact Field.ofInt_rawOfBits (length_slice h hplace)

/-- The bits of a payload up to the last byte that a layout needs, with zeros for those of reserved
fields and for those behind the layout's end. -/
def cleared (l : Layout) (payload : Bytes) : Bits :=
  (Bits.ofBytes (payload.take l.frameBytes)).mapIdx fun i bit =>
    bit && !decide (l.HasBit true i ∨ l.frameBits ≤ i)

theorem getElem?_cleared (h : l.frameBits ≤ 8 * payload.length) {i : Nat}
    (hi : i < 8 * l.frameBytes) :
    (l.cleared payload)[i]? =
      if l.HasBit true i ∨ l.frameBits ≤ i then some false else (Bits.ofBytes payload)[i]? := by
  have hbytes : l.frameBytes ≤ payload.length := by
    have := l.frameBytes_lt
    omega
  have hlt : i < (Bits.ofBytes payload).length := by
    rw [Bits.length_ofBytes]
    omega
  rw [cleared, List.getElem?_mapIdx, Bits.ofBytes_take hbytes, List.getElem?_take_of_lt hi,
    List.getElem?_eq_getElem hlt, Option.map_some]
  split
  · simp [*]
  · simp [*]

theorem length_cleared (h : l.frameBits ≤ 8 * payload.length) :
    (l.cleared payload).length = 8 * l.frameBytes := by
  have := l.frameBytes_lt
  rw [cleared, List.length_mapIdx, Bits.length_ofBytes, List.length_take]
  omega

theorem getElem?_packed (h : l.frameBits ≤ 8 * payload.length) {after : Bits} {i : Nat}
    (hplace : place ∈ l.offsets) (hi : Covers place i) :
    (bitsOf (rawIn (l.recordOf payload)) l.fields ++ after)[i]? =
      if place.1.reserved then some false else (Bits.ofBytes payload)[i]? := by
  have hslice := take_drop_bitsOf (rawIn (l.recordOf payload)) hplace [] rfl after
  rw [List.nil_append, fieldBits_rawIn h hplace] at hslice
  rw [getElem?_of_covers _ hi, hslice]
  cases place.1.reserved with
  | true =>
    unfold Covers at hi
    rw [if_pos rfl, if_pos rfl, List.getElem?_replicate, if_pos (by omega)]
  | false => exact (getElem?_of_covers _ hi).symm

/-- **A record that was read is packed into the payload's bits, with zeros for those that are not of
a reported field.** -/
theorem ofBytes_packed (h : l.frameBits ≤ 8 * payload.length) :
    Bits.ofBytes (bitsOf (rawIn (l.recordOf payload)) l.fields).toBytes = l.cleared payload := by
  have hbits : (bitsOf (rawIn (l.recordOf payload)) l.fields).length = l.frameBits :=
    length_bitsOf _ _
  have hend := l.frameBits_le
  rw [Bits.ofBytes_toBytes, hbits]
  show _ ++ List.replicate (8 * l.frameBytes - l.frameBits) false = _
  apply List.ext_getElem?
  intro i
  by_cases hi : i < 8 * l.frameBytes
  · rw [getElem?_cleared h hi]
    by_cases hbehind : l.frameBits ≤ i
    · rw [if_pos (.inr hbehind), List.getElem?_append_right (by omega), List.getElem?_replicate,
        if_pos (by omega)]
    · have hlt : i < 0 + totalWidth l.fields := by
        unfold frameBits at hbehind
        omega
      obtain ⟨place, hplace, hcovers⟩ := exists_covers (Nat.zero_le i) hlt
      rw [getElem?_packed h hplace hcovers]
      cases hreserved : place.1.reserved with
      | true => rw [if_pos rfl, if_pos (.inl ⟨place, hplace, hreserved, hcovers⟩)]
      | false =>
        have hbit := (l.hasBit_false_iff i).1 ⟨place, hplace, hreserved, hcovers⟩
        rw [if_neg Bool.false_ne_true, if_neg (not_or.2 ⟨hbit.2, hbehind⟩)]
  · rw [List.getElem?_eq_none, List.getElem?_eq_none]
    · rw [length_cleared h]
      omega
    · rw [List.length_append, hbits, List.length_replicate]
      omega

/-! ## The round trip -/

/-- **Packing what was read gives the payload back, up to reserved and padding bits.** It never
fails, and it gives just the bytes that the layout needs: those of the payload, with zeros for every
bit that is not of a reported field. Reading these gives the same values again; and whatever other
payload is read, it gives the same values just when it agrees in all bits of reported fields. -/
theorem packRecord_unpack (l : Layout) (payload : Bytes)
    (h : l.frameBits ≤ 8 * payload.length) :
    ∃ record, l.unpack payload = .ok record ∧
      (∃ packed, l.packRecord record = .ok packed ∧ packed.length = l.frameBytes ∧
        Bits.ofBytes packed = l.cleared payload ∧
        l.unpack packed = .ok { record with payloadBits := 8 * l.frameBytes }) ∧
      ∀ other, l.frameBits ≤ 8 * other.length →
        ∃ record', l.unpack other = .ok record' ∧
          (record'.entries = record.entries ↔
            ∀ i, l.HasBit false i → (Bits.ofBytes other)[i]? = (Bits.ofBytes payload)[i]?) := by
  refine ⟨_, unpack_of_le h, ⟨_, packRecord_recordOf h, ?_⟩, fun other hother =>
    ⟨_, unpack_of_le hother, entries_recordOf_eq_iff hother h⟩⟩
  have hbits := ofBytes_packed h
  generalize (bitsOf (rawIn (l.recordOf payload)) l.fields).toBytes = packed at hbits ⊢
  have hlength : packed.length = l.frameBytes := by
    have hlengths := congrArg List.length hbits
    rw [Bits.length_ofBytes, length_cleared h] at hlengths
    omega
  have hpacked : l.frameBits ≤ 8 * packed.length := by
    rw [hlength]
    exact l.frameBits_le
  have hentries : (l.recordOf packed).entries = (l.recordOf payload).entries := by
    rw [entries_recordOf_eq_iff hpacked h, hbits]
    intro i hi
    obtain ⟨hlt, hreported⟩ := (l.hasBit_false_iff i).1 hi
    have hend := l.frameBits_le
    rw [getElem?_cleared h (by omega), if_neg (not_or.2 ⟨hreported, Nat.not_le.2 hlt⟩)]
  refine ⟨hlength, hbits, ?_⟩
  rw [unpack_of_le hpacked, recordOf, ← hlength, Except.ok.injEq, Record.mk.injEq]
  exact ⟨hentries, rfl, rfl⟩

/-- A sign bit, a gap, a whole word with a sign, and three bits that are scaled: 69 bits. -/
def unaligned : Layout where
  fields := [.twosComplement "sign" 1, .padding "gap" 1, .twosComplement "word" 64,
    (Field.unsigned "level" 3).withScale 10]
  fields_valid := ((fieldsFault?_eq_none_iff [] _).1 (by decide)).1
  names_nodup := by decide

/-- The least number of 64 bits is packed again, and the gap and the bits behind are lost. -/
theorem packRecord_unpack_unaligned :
    unaligned.frameBits ≤ 8 * [0xe0, 0, 0, 0, 0, 0, 0, 0, 0x2f, 0xff].length ∧
    (unaligned.unpack [0xe0, 0, 0, 0, 0, 0, 0, 0, 0x2f, 0xff]).bind unaligned.packRecord =
      .ok [0xa0, 0, 0, 0, 0, 0, 0, 0, 0x28] ∧
    ∃ record, unaligned.unpack [0xe0, 0, 0, 0, 0, 0, 0, 0, 0x2f, 0xff] = .ok record ∧
      ∃ packed, unaligned.packRecord record = .ok packed ∧ packed.length = 9 ∧
        Bits.ofBytes packed = unaligned.cleared [0xe0, 0, 0, 0, 0, 0, 0, 0, 0x2f, 0xff] ∧
        unaligned.unpack packed = .ok { record with payloadBits := 72 } := by
  refine ⟨by decide, rfl, ?_⟩
  obtain ⟨record, hread, hpacked, -⟩ :=
    packRecord_unpack unaligned [0xe0, 0, 0, 0, 0, 0, 0, 0, 0x2f, 0xff] (by decide)
  exact ⟨record, hread, hpacked⟩

end Layout

end Downlink
