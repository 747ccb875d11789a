import Downlink.Proofs.FieldBits

/-!
# What a payload holds

Reading the fields of a layout one after another is taking from the payload, for each field that
is not reserved, the bits at its offset. It succeeds just when the payload is long enough
(`unpack_of_le`), whatever its bits are; otherwise the first field that runs over the end is the
one named (`unpack_of_lt`).
-/

namespace Downlink

/-! ## Moving the reader -/

namespace BitReader

/-- The reader behind the next `count` bits. -/
def skip (r : BitReader) (count : Nat) (h : count ≤ r.remaining) : BitReader :=
  ⟨r.bits, r.position + count, by
    have := r.position_le
    unfold remaining at h
    omega⟩

@[simp] theorem bits_skip (r : BitReader) (count : Nat) (h : count ≤ r.remaining) :
    (r.skip count h).bits = r.bits := rfl

@[simp] theorem position_skip (r : BitReader) (count : Nat) (h : count ≤ r.remaining) :
    (r.skip count h).position = r.position + count := rfl

theorem remaining_skip (r : BitReader) (count : Nat) (h : count ≤ r.remaining) :
    (r.skip count h).remaining = r.remaining - count := by
  simp only [remaining, bits_skip, position_skip]
  omega

theorem skip_skip (r : BitReader) {i j : Nat} (hi : i ≤ r.remaining)
    (hj : j ≤ (r.skip i hi).remaining) :
    (r.skip i hi).skip j hj = r.skip (i + j) (by rw [remaining_skip] at hj; omega) := by
  simp only [skip, Nat.add_assoc]

theorem read_of_le {r : BitReader} {width : Nat} (hpos : 1 ≤ width) (hmax : width ≤ maxFieldWidth)
    (h : width ≤ r.remaining) (field : String) :
    r.read field width = .ok ((r.bits.drop r.position).take width, r.skip width h) := by
  have := r.position_le
  have hfits : r.position + width ≤ r.bits.length := by
    unfold remaining at h
    omega
  rw [read, if_neg (by omega), dif_pos hfits]
  rfl

theorem read_of_lt {r : BitReader} {width : Nat} (hpos : 1 ≤ width) (hmax : width ≤ maxFieldWidth)
    (h : r.remaining < width) (field : String) :
    r.read field width = .error (.insufficientBits field width r.remaining r.position) := by
  have := r.position_le
  have hover : ¬ r.position + width ≤ r.bits.length := by
    unfold remaining at h
    omega
  rw [read, if_neg (by omega), dif_neg hover]

end BitReader

namespace Field

theorem readRaw_of_le {f : Field} (hf : f.Valid) {r : BitReader} (h : f.width ≤ r.remaining) :
    f.readRaw r = .ok (f.rawOfBits ((r.bits.drop r.position).take f.width), r.skip f.width h) := by
  rw [readRaw_eq, BitReader.read_of_le hf.width_pos hf.width_le h]
  rfl

theorem readRaw_of_lt {f : Field} (hf : f.Valid) {r : BitReader} (h : r.remaining < f.width) :
    f.readRaw r = .error (.insufficientBits f.name f.width r.remaining r.position) := by
  rw [readRaw_eq, BitReader.read_of_lt hf.width_pos hf.width_le h]
  rfl

end Field

namespace Layout

/-! ## Reading the fields -/

@[simp] theorem totalWidth_nil : totalWidth [] = 0 := rfl

@[simp] theorem totalWidth_cons (f : Field) (fields : List Field) :
    totalWidth (f :: fields) = f.width + totalWidth fields := rfl

theorem frameBits_le (l : Layout) : l.frameBits ≤ 8 * l.frameBytes := by
  unfold frameBytes Bits.bytesFor
  omega

theorem frameBytes_lt (l : Layout) : 8 * l.frameBytes < l.frameBits + 8 := by
  unfold frameBytes Bits.bytesFor
  omega

/-- The entries that a bit string has for fields at their offsets, reserved ones left out. -/
def entriesAt (bits : Bits) (places : List (Field × Nat)) : List (String × Value) :=
  (places.filter (!·.1.reserved)).map fun (f, offset) =>
    (f.name, .ofRaw f (f.rawOfBits ((bits.drop offset).take f.width)))

theorem entriesAt_cons (bits : Bits) (f : Field) (offset : Nat) (places : List (Field × Nat)) :
    entriesAt bits ((f, offset) :: places) =
      if f.reserved then entriesAt bits places
      else (f.name, .ofRaw f (f.rawOfBits ((bits.drop offset).take f.width)))
        :: entriesAt bits places := by
  cases h : f.reserved <;> simp [entriesAt, h]

theorem readFields_of_le {fields : List Field} (hvalid : ∀ f ∈ fields, f.Valid) {r : BitReader}
    (h : totalWidth fields ≤ r.remaining) :
    readFields fields r =
      .ok (entriesAt r.bits (offsetsFrom r.position fields), r.skip (totalWidth fields) h) := by
  induction fields generalizing r with
  | nil => rfl
  | cons f rest ih =>
    rw [totalWidth_cons] at h
    have hf : f.Valid := hvalid f List.mem_cons_self
    have hfits : f.width ≤ r.remaining := by omega
    have hrest : totalWidth rest ≤ (r.skip f.width hfits).remaining := by
      rw [BitReader.remaining_skip]
      omega
    have hmore := ih (fun g hg => hvalid g (List.mem_cons_of_mem f hg)) hrest
    simp only [readFields, Field.readRaw_of_le hf hfits, hmore, bind, Except.bind, pure,
      Except.pure, offsetsFrom, entriesAt_cons, BitReader.bits_skip, BitReader.position_skip,
      BitReader.skip_skip, totalWidth_cons]

theorem readFields_of_lt {fields : List Field} (hvalid : ∀ f ∈ fields, f.Valid) {r : BitReader}
    (h : r.remaining < totalWidth fields) :
    ∃ f offset, (f, offset) ∈ offsetsFrom r.position fields ∧
      offset ≤ r.bits.length ∧ r.bits.length < offset + f.width ∧
      readFields fields r =
        .error (.insufficientBits f.name f.width (r.bits.length - offset) offset) := by
  induction fields generalizing r with
  | nil => simp at h
  | cons f rest ih =>
    rw [totalWidth_cons] at h
    have hf : f.Valid := hvalid f List.mem_cons_self
    have hend := r.position_le
    by_cases hfits : f.width ≤ r.remaining
    · have hrest : (r.skip f.width hfits).remaining < totalWidth rest := by
        rw [BitReader.remaining_skip]
        omega
      obtain ⟨g, offset, hmem, hle, hlt, herror⟩ :=
        ih (fun g hg => hvalid g (List.mem_cons_of_mem f hg)) hrest
      refine ⟨g, offset, List.mem_cons_of_mem _ hmem, hle, hlt, ?_⟩
      simp only [readFields, Field.readRaw_of_le hf hfits, herror, bind, Except.bind,
        BitReader.bits_skip]
    · have hover : r.remaining < f.width := by omega
      refine ⟨f, r.position, List.mem_cons_self, hend, ?_, ?_⟩
      · unfold BitReader.remaining at hover
        omega
      · rw [readFields, Field.readRaw_of_lt hf hover]
        rfl

/-! ## Unpacking -/

/-- The record of a payload that is long enough. -/
def recordOf (l : Layout) (payload : Bytes) : Record where
  entries := entriesAt (Bits.ofBytes payload) l.offsets
  consumedBits := l.frameBits
  payloadBits := 8 * payload.length

theorem unpack_of_le {l : Layout} {payload : Bytes} (h : l.frameBits ≤ 8 * payload.length) :
    l.unpack payload = .ok (l.recordOf payload) := by
  have hfits : totalWidth l.fields ≤ (BitReader.ofBytes payload).remaining := by
    rw [BitReader.remaining_ofBytes]
    exact h
  rw [unpack, readFields_of_le l.fields_valid hfits]
  simp only [bind, Except.bind, pure, Except.pure, BitReader.position_skip, BitReader.ofBytes,
    Nat.zero_add]
  rfl

theorem unpack_of_lt {l : Layout} {payload : Bytes} (h : 8 * payload.length < l.frameBits) :
    ∃ f offset, (f, offset) ∈ l.offsets ∧
      offset ≤ 8 * payload.length ∧ 8 * payload.length < offset + f.width ∧
      l.unpack payload =
        .error (.insufficientBits f.name f.width (8 * payload.length - offset) offset) := by
  have hover : (BitReader.ofBytes payload).remaining < totalWidth l.fields := by
    rw [BitReader.remaining_ofBytes]
    exact h
  have hlength : (BitReader.ofBytes payload).bits.length = 8 * payload.length :=
    Bits.length_ofBytes payload
  obtain ⟨f, offset, hmem, hle, hlt, herror⟩ := readFields_of_lt l.fields_valid hover
  rw [hlength] at hle hlt herror
  refine ⟨f, offset, hmem, hle, hlt, ?_⟩
  rw [unpack, herror]
  rfl

theorem unpackExact_of_error {l : Layout} {payload : Bytes} {error : FieldError}
    (h : l.unpack payload = .error error) : l.unpackExact payload = .error error := by
  rw [unpackExact, h]
  rfl

theorem unpackExact_of_eq {l : Layout} {payload : Bytes} (h : l.frameBits = 8 * payload.length) :
    l.unpackExact payload = .ok (l.recordOf payload) := by
  have hunread : (l.recordOf payload).unreadBits = 0 :=
    Nat.sub_eq_zero_of_le (Nat.le_of_eq h.symm)
  rw [unpackExact, unpack_of_le (Nat.le_of_eq h)]
  simp only [bind, Except.bind, hunread]
  rfl

theorem unpackExact_of_lt {l : Layout} {payload : Bytes} (h : l.frameBits < 8 * payload.length) :
    l.unpackExact payload =
      .error (.trailingBits l.frameBits (8 * payload.length - l.frameBits)) := by
  have hunread : (l.recordOf payload).unreadBits = 8 * payload.length - l.frameBits := rfl
  rw [unpackExact, unpack_of_le (Nat.le_of_lt h)]
  simp only [bind, Except.bind, hunread]
  rw [if_neg (by omega)]
  rfl

end Layout

end Downlink
