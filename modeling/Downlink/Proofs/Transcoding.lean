import Downlink.Proofs.DecodeOutcomes
import Downlink.Proofs.RecordPlaces

/-!
# Packing a record under another layout

A record may be packed under a layout other than the one that it was read under. Each field that the
other layout reports asks the record for the field of its own name, and takes that field's raw
integer if it holds it (`Supplies`). So packing succeeds just when all of them are supplied, and
otherwise the first that is not is the one refused (`writeFields_eq_error_iff`). Widths, signs,
scales and the order of the two layouts do not matter beyond that: what was packed is read again as
the same integers, and no other bit is set (`packRecord_transcodes`).
-/

namespace Downlink

namespace Layout

variable {l a b : Layout} {record : Record} {f : Field} {error : FieldError}

/-! ## Where writing stops -/

theorem writeFields_eq_error_iff {rawOf : Field → Except FieldError Int} {fields : List Field}
    {w : BitWriter} :
    writeFields rawOf fields w = .error error ↔
      ∃ front f behind, fields.filter (!·.reserved) = front ++ f :: behind ∧
        (∀ g ∈ front, ∃ raw, rawOf g = .ok raw) ∧ rawOf f = .error error := by
  induction fields generalizing w with
  | nil => simp [writeFields]
  | cons g rest ih =>
    rw [writeFields_cons]
    cases hreserved : g.reserved with
    | true =>
      rw [if_pos rfl, List.filter_cons_of_neg (by simp [hreserved])]
      exact ih
    | false =>
      rw [if_neg Bool.false_ne_true, List.filter_cons_of_pos (by simp [hreserved])]
      cases hraw : rawOf g with
      | error refusal =>
        constructor
        · intro h
          obtain rfl : refusal = error := Except.error.inj h
          exact ⟨[], g, _, rfl, by simp, hraw⟩
        · rintro ⟨front, f, behind, hfields, hfront, hrefused⟩
          cases front with
          | nil =>
            obtain ⟨rfl, -⟩ := List.cons.inj hfields
            obtain rfl : refusal = error := Except.error.inj (hraw.symm.trans hrefused)
            rfl
          | cons g' front =>
            obtain ⟨rfl, -⟩ := List.cons.inj hfields
            obtain ⟨raw, hok⟩ := hfront g List.mem_cons_self
            rw [hraw] at hok
            cases hok
      | ok raw =>
        rw [Except.bind, ih]
        constructor
        · rintro ⟨front, f, behind, hfields, hfront, hrefused⟩
          refine ⟨g :: front, f, behind, by rw [hfields]; rfl, ?_, hrefused⟩
          exact List.forall_mem_cons.2 ⟨⟨raw, hraw⟩, hfront⟩
        · rintro ⟨front, f, behind, hfields, hfront, hrefused⟩
          cases front with
          | nil =>
            obtain ⟨rfl, -⟩ := List.cons.inj hfields
            rw [hraw] at hrefused
            cases hrefused
          | cons g' front =>
            obtain ⟨rfl, hrest⟩ := List.cons.inj hfields
            exact ⟨front, f, behind, hrest, (List.forall_mem_cons.1 hfront).2, hrefused⟩

theorem packRaw_eq_error_iff {rawOf : Field → Except FieldError Int} :
    l.packRaw rawOf = .error error ↔
      ∃ front f behind, l.reported = front ++ f :: behind ∧
        (∀ g ∈ front, ∃ raw, rawOf g = .ok raw) ∧ rawOf f = .error error := by
  rw [reported, ← writeFields_eq_error_iff (w := .empty), packRaw]
  cases writeFields rawOf l.fields .empty with
  | error refusal =>
    constructor
    · intro h
      obtain rfl : refusal = error := Except.error.inj h
      rfl
    · intro h
      obtain rfl : refusal = error := Except.error.inj h
      rfl
  | ok w => exact iff_of_false (fun h => by cases h) (fun h => by cases h)

theorem exists_packRaw_eq_ok_iff {rawOf : Field → Except FieldError Int} :
    (∃ packed, l.packRaw rawOf = .ok packed) ↔ ∀ f ∈ l.reported, ∃ raw, rawOf f = .ok raw := by
  constructor
  · rintro ⟨packed, hpacked⟩ f hf
    obtain ⟨hmember, hreported⟩ := List.mem_filter.1 hf
    cases hw : writeFields rawOf l.fields .empty with
    | error refusal =>
      rw [packRaw, hw] at hpacked
      cases hpacked
    | ok w => exact exists_rawOf_of_writeFields hw f hmember (by simpa using hreported)
  · intro hall
    cases hpack : l.packRaw rawOf with
    | ok packed => exact ⟨packed, rfl⟩
    | error refusal =>
      obtain ⟨front, f, behind, hreported, -, hrefused⟩ := packRaw_eq_error_iff.1 hpack
      obtain ⟨raw, hraw⟩ := hall f (by rw [hreported]; exact List.mem_append_cons_self)
      rw [hrefused] at hraw
      cases hraw

/-! ## Records of a layout -/

/-- A record was read under a layout: it is what a payload was unpacked to, with or without bits
behind the last field, or what a datagram was decoded to. -/
inductive Yields (l : Layout) : Record → Prop
  | unpacked {payload : Bytes} {record : Record} (h : l.unpack payload = .ok record) :
    Yields l record
  | unpackedExactly {payload : Bytes} {record : Record} (h : l.unpackExact payload = .ok record) :
    Yields l record
  | decoded {d : Decoder} {datagram : Bytes} {record : Record} (hlayout : d.layout = l)
    (h : d.decode datagram = .ok record) : Yields l record

theorem eq_recordOf_of_unpack {payload : Bytes} (h : l.unpack payload = .ok record) :
    record = l.recordOf payload := by
  rcases Nat.lt_or_ge (8 * payload.length) l.frameBits with hshort | hlong
  · obtain ⟨f, offset, -, -, -, herror⟩ := unpack_of_lt hshort
    rw [h] at herror
    cases herror
  · rw [unpack_of_le hlong] at h
    exact (Except.ok.inj h).symm

theorem unpack_of_unpackExact {payload : Bytes} (h : l.unpackExact payload = .ok record) :
    l.unpack payload = .ok record := by
  rw [unpackExact] at h
  cases hunpack : l.unpack payload with
  | error refusal =>
    rw [hunpack] at h
    cases h
  | ok other =>
    rw [hunpack] at h
    simp only [bind, Except.bind] at h
    split at h
    · exact h
    · cases h

theorem Yields.exists_payload (h : a.Yields record) : ∃ payload, record = a.recordOf payload := by
  cases h with
  | unpacked hunpack => exact ⟨_, eq_recordOf_of_unpack hunpack⟩
  | unpackedExactly hunpack => exact ⟨_, eq_recordOf_of_unpack (unpack_of_unpackExact hunpack)⟩
  | decoded hlayout hdecode =>
    subst hlayout
    obtain ⟨payload, -, -, -, hrecord⟩ := (Decoder.decode_eq_ok_iff _ _ _).1 hdecode
    exact ⟨payload, hrecord⟩

theorem Yields.names (h : a.Yields record) :
    record.entries.map Prod.fst = a.reported.map Field.name := by
  obtain ⟨payload, rfl⟩ := h.exists_payload
  exact map_fst_entries_recordOf a payload

/-! ## What a record has for another field -/

/-- A record of a layout has an integer for a field: it has the field of that name, and the integer
of that one lies in the range of this one. -/
def Supplies (a : Layout) (record : Record) (f : Field) : Prop :=
  ∃ g ∈ a.reported, g.name = f.name ∧ ∃ value, record.get? g.name = some value ∧
    f.rawMin ≤ value.raw ∧ value.raw ≤ f.rawMax

/-- Why a field does not get an integer: no reported field has its name, or that field's integer is
out of its range. -/
def Refuses (a : Layout) (record : Record) (f : Field) (error : FieldError) : Prop :=
  ((∀ g ∈ a.reported, g.name ≠ f.name) ∧ error = .missingValue f.name) ∨
    ∃ g ∈ a.reported, g.name = f.name ∧ ∃ value, record.get? g.name = some value ∧
      ¬ (f.rawMin ≤ value.raw ∧ value.raw ≤ f.rawMax) ∧
      error = .valueOutOfRange f.name (f.engineering value.raw) (f.engineering f.rawMin)
        (f.engineering f.rawMax)

theorem exists_reported_of_get? (h : a.Yields record) {name : String} {value : Value}
    (hvalue : record.get? name = some value) : ∃ g ∈ a.reported, g.name = name := by
  have hsome : ¬ ∀ g ∈ a.reported, g.name ≠ name := by
    intro hother
    rw [(get?_eq_none_iff h.names name).2 hother] at hvalue
    cases hvalue
  simpa using hsome

theorem holds_iff_range (f : Field) (raw : Int) :
    f.holds raw = true ↔ f.rawMin ≤ raw ∧ raw ≤ f.rawMax := by
  rw [Field.holds, Bool.and_eq_true, decide_eq_true_eq, decide_eq_true_eq]

theorem exists_rawOf_decoded_iff (h : a.Yields record) (f : Field) :
    (∃ raw, (Cargo.decoded record).rawOf f = .ok raw) ↔ a.Supplies record f := by
  simp only [Cargo.rawOf_eq_ok_iff, Cargo.raw?, holds_iff_range]
  constructor
  · rintro ⟨raw, hraw, hrange⟩
    obtain ⟨value, hvalue, rfl⟩ := Option.map_eq_some_iff.1 hraw
    obtain ⟨g, hg, hname⟩ := exists_reported_of_get? h hvalue
    exact ⟨g, hg, hname, value, by rw [hname]; exact hvalue, hrange⟩
  · rintro ⟨g, -, hname, value, hvalue, hrange⟩
    rw [hname] at hvalue
    exact ⟨value.raw, by rw [hvalue]; rfl, hrange⟩

theorem rawOf_decoded_eq_error_iff (h : a.Yields record) (f : Field) (error : FieldError) :
    (Cargo.decoded record).rawOf f = .error error ↔ a.Refuses record f error := by
  rw [Cargo.rawOf]
  cases hvalue : record.get? f.name with
  | none =>
    have hother := (get?_eq_none_iff h.names f.name).1 hvalue
    constructor
    · intro he
      exact .inl ⟨hother, (Except.error.inj he).symm⟩
    · rintro (⟨-, rfl⟩ | ⟨g, hg, hname, -⟩)
      · rfl
      · exact absurd hname (hother g hg)
  | some value =>
    obtain ⟨g, hg, hname⟩ := exists_reported_of_get? h hvalue
    show f.checkRaw value.raw = .error error ↔ _
    rw [Field.checkRaw]
    by_cases hholds : f.holds value.raw = true
    · rw [if_pos hholds]
      refine iff_of_false (fun he => by cases he) ?_
      rintro (⟨hother, -⟩ | ⟨g', -, hname', value', hvalue', hrange, -⟩)
      · exact hother g hg hname
      · rw [hname', hvalue, Option.some.injEq] at hvalue'
        rw [← hvalue'] at hrange
        exact hrange ((holds_iff_range f _).1 hholds)
    · rw [if_neg hholds]
      constructor
      · intro he
        refine .inr ⟨g, hg, hname, value, by rw [hname]; exact hvalue, ?_, ?_⟩
        · exact fun hrange => hholds ((holds_iff_range f _).2 hrange)
        · exact (Except.error.inj he).symm
      · rintro (⟨hother, -⟩ | ⟨g', -, hname', value', hvalue', -, rfl⟩)
        · exact absurd hname (hother g hg)
        · rw [hname', hvalue, Option.some.injEq] at hvalue'
          rw [hvalue']
          rfl

/-! ## What was packed -/

theorem getD_replicate_false (count i : Nat) :
    ((List.replicate count false)[i]?).getD false = false := by
  rw [List.getElem?_replicate]
  split <;> rfl

theorem bitAt_toBytes_bitsOf (l : Layout) (raw : Field → Int) {i : Nat} (hi : ¬ l.HasBit false i) :
    (bitsOf raw l.fields).toBytes.bitAt i = false := by
  have hlength : (bitsOf raw l.fields).length = l.frameBits := length_bitsOf raw l.fields
  rw [Bytes.bitAt_eq_getD, Bits.ofBytes_toBytes]
  by_cases hinside : i < l.frameBits
  · have hend : i < 0 + totalWidth l.fields := by
      rw [Nat.zero_add]
      exact hinside
    obtain ⟨place, hplace, hcovers⟩ := exists_covers (Nat.zero_le i) hend
    have hreserved : place.1.reserved = true := by
      cases hreported : place.1.reserved with
      | true => rfl
      | false => exact absurd ⟨place, hplace, hreported, hcovers⟩ hi
    have hbits := take_drop_bitsOf raw hplace [] rfl
      (List.replicate (8 * Bits.bytesFor (bitsOf raw l.fields).length -
        (bitsOf raw l.fields).length) false)
    rw [List.nil_append, fieldBits, if_pos hreserved, Bits.ofInt_zero] at hbits
    rw [getElem?_of_covers _ hcovers, hbits, getD_replicate_false]
  · rw [List.getElem?_append_right (by omega), getD_replicate_false]

/-! ## The two layouts -/

/-- What becomes of a record of one layout that is packed under another. -/
structure Transcodes (a b : Layout) (record : Record) : Prop where
  /-- It is packed just when it has an integer for each field that the other layout reports. -/
  ok_iff : (∃ packed, b.packRecord record = .ok packed) ↔
    ∀ f ∈ b.reported, a.Supplies record f
  /-- Otherwise the first field without one is refused, in the other layout's order. -/
  error_iff : ∀ error, b.packRecord record = .error error ↔
    ∃ front f behind, b.reported = front ++ f :: behind ∧
      (∀ g ∈ front, a.Supplies record g) ∧ a.Refuses record f error
  /-- What was packed has the bytes that the other layout needs. -/
  length : ∀ packed, b.packRecord record = .ok packed → packed.length = b.frameBytes
  /-- Each field is read again as the integer that it got. -/
  unpack : ∀ packed, b.packRecord record = .ok packed →
    ∃ record', b.unpack packed = .ok record' ∧
      ∀ f ∈ b.reported, ∃ value value', record.get? f.name = some value ∧
        record'.get? f.name = some value' ∧ value'.raw = value.raw
  /-- The bits of reserved fields are zero, and so are those behind the last field. -/
  zero : ∀ packed, b.packRecord record = .ok packed →
    ∀ i, b.HasBit true i ∨ b.frameBits ≤ i → packed.bitAt i = false

/-- **What is packed under another layout is what that layout's fields are supplied with.** -/
theorem packRecord_transcodes (a b : Layout) (record : Record) (h : a.Yields record) :
    a.Transcodes b record where
  ok_iff := by
    show (∃ packed, b.packRaw (Cargo.decoded record).rawOf = .ok packed) ↔ _
    simp only [exists_packRaw_eq_ok_iff, exists_rawOf_decoded_iff h]
  error_iff := by
    intro error
    show b.packRaw (Cargo.decoded record).rawOf = .error error ↔ _
    simp only [packRaw_eq_error_iff, exists_rawOf_decoded_iff h, rawOf_decoded_eq_error_iff h]
  length := fun packed hpacked => length_of_pack (c := .decoded record) hpacked
  unpack := by
    intro packed hpacked
    have hpack : b.pack (.decoded record) = .ok packed := hpacked
    have hlong : b.frameBits ≤ 8 * packed.length := by
      rw [length_of_pack hpack]
      exact b.frameBits_le
    refine ⟨_, unpack_of_le hlong, fun f hf => ?_⟩
    have hraw := (carries_of_pack hpack).raw f hf
    obtain ⟨raws, hraws, -⟩ := exists_raw_of_pack hpack
    obtain ⟨value, hvalue, -⟩ := Option.map_eq_some_iff.1 (hraws f hf).1
    rw [Cargo.raw?, hvalue, Option.map_some] at hraw
    obtain ⟨value', hvalue', heq⟩ := Option.map_eq_some_iff.1 hraw
    exact ⟨value, value', hvalue, hvalue', heq⟩
  zero := by
    intro packed hpacked i hi
    have hpack : b.pack (.decoded record) = .ok packed := hpacked
    obtain ⟨raws, -, rfl⟩ := exists_raw_of_pack hpack
    refine b.bitAt_toBytes_bitsOf raws fun hreported => ?_
    obtain ⟨hinside, hnot⟩ := (b.hasBit_false_iff i).1 hreported
    rcases hi with hreserved | hbehind
    · exact hnot hreserved
    · omega

/-- Other widths, signs and scales, in another order, with a gap of its own. -/
def rearranged : Layout where
  fields := [.unsigned "level" 9, .padding "spare" 3, (Field.twosComplement "sign" 6).withScale 7]
  fields_valid := ((fieldsFault?_eq_none_iff [] _).1 (by decide)).1
  names_nodup := by decide

/-- The integers 3 and -1 are packed in another order. -/
theorem packRecord_transcodes_rearranged :
    unaligned.Yields (unaligned.recordOf [0xbf, 0xff, 0xff, 0xff, 0xff, 0xff, 0xff, 0xff, 0x9f]) ∧
    rearranged.packRecord
        (unaligned.recordOf [0xbf, 0xff, 0xff, 0xff, 0xff, 0xff, 0xff, 0xff, 0x9f]) =
      .ok [0x01, 0x8f, 0xc0] ∧
    unaligned.Transcodes rearranged
      (unaligned.recordOf [0xbf, 0xff, 0xff, 0xff, 0xff, 0xff, 0xff, 0xff, 0x9f]) := by
  have hyields : unaligned.Yields
      (unaligned.recordOf [0xbf, 0xff, 0xff, 0xff, 0xff, 0xff, 0xff, 0xff, 0x9f]) :=
    .unpacked (unpack_of_le (by decide))
  exact ⟨hyields, rfl, packRecord_transcodes _ _ _ hyields⟩

/-- The same fields, neither with a sign. -/
def unsignedPair : Layout where
  fields := [.unsigned "level" 3, .unsigned "sign" 1]
  fields_valid := ((fieldsFault?_eq_none_iff [] _).1 (by decide)).1
  names_nodup := by decide

/-- A negative integer is not packed without a sign, though its low bits would fit. -/
example :
    unsignedPair.packRecord
        (unaligned.recordOf [0xbf, 0xff, 0xff, 0xff, 0xff, 0xff, 0xff, 0xff, 0x9f]) =
      .error (.valueOutOfRange "sign" (.ofInt (-1)) (.ofInt 0) (.ofInt 1)) := by
  rfl

end Layout

end Downlink
