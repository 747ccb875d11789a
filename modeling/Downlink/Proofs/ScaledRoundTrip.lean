import Downlink.Proofs.Rounding
import Downlink.Proofs.WholeValues
import Downlink.Proofs.RecordPlaces
import Downlink.Proofs.ValueEncoding

/-!
# Packing the engineering values that were read

The engineering value of an integer is the integer divided by the scale, rounded once
(`Value.isRounded_toBinary64`). Packing multiplies it by the scale, rounds again, and takes the whole
number next to it. For an integer of 51 bits both errors together are less than a half
(`Binary64.abs_sub_lt_half`), so this is the integer again, whatever the scale is
(`Field.toIntRounded?_toBinary64`). With 52 bits it need not be: an example at the end is off by one.

So a record whose fields have up to 51 bits is packed from its engineering values into the same bytes
as from its integers (`Layout.packValues_unpack`).
-/

namespace Downlink

namespace Binary64

variable {x : Binary64} {n : Int} {scale : Nat}

/-! ## A quotient times its divisor -/

theorem hasMagnitude_ofInt (hn : n.natAbs < 2 ^ (53 : Nat)) :
    (ofInt n).HasMagnitude (n < 0) n.natAbs :=
  hasMagnitude_round_one _ hn

theorem regular_of_bounds {r : Rat} (hlow : 1 / 2 ^ (32 : Int) ≤ r) (hhigh : r < 2 ^ (64 : Int)) :
    Regular r := by
  refine .inr ⟨?_, hhigh.trans_le (zpow_le_zpow_right₀ one_le_two (by norm_num))⟩
  calc (2 : Rat) ^ (-1022 : Int) ≤ 2 ^ (-32 : Int) := zpow_le_zpow_right₀ one_le_two (by norm_num)
    _ = 1 / 2 ^ (32 : Int) := by rw [zpow_neg, one_div]
    _ ≤ r := hlow

theorem regular_div {k : Nat} (hk : k < 2 ^ (53 : Nat)) (hpos : 0 < scale)
    (hscale : scale < 2 ^ (32 : Nat)) : Regular (k / scale) := by
  rcases Nat.eq_zero_or_pos k with rfl | hone
  · left
    rw [Nat.cast_zero, zero_div]
  · have hpos' : (1 : Rat) ≤ scale := by exact_mod_cast hpos
    have hone' : (1 : Rat) ≤ k := by exact_mod_cast hone
    have hk' : (k : Rat) < 2 ^ (53 : Int) := by
      rw [show (53 : Int) = (53 : Nat) from rfl, zpow_natCast]
      exact_mod_cast hk
    have hscale' : (scale : Rat) ≤ 2 ^ (32 : Int) := by
      rw [show (32 : Int) = (32 : Nat) from rfl, zpow_natCast]
      exact_mod_cast hscale.le
    apply regular_of_bounds
    · exact div_le_div₀ (by linarith) hone' (by linarith) hscale'
    · calc (k : Rat) / scale ≤ k := div_le_self (by linarith) hpos'
        _ < 2 ^ (53 : Int) := hk'
        _ ≤ 2 ^ (64 : Int) := zpow_le_zpow_right₀ one_le_two (by norm_num)

variable {a b : Rat} {k : Nat}

theorem abs_mul_sub_le (hpos : 0 < scale) (ha : |a - k / scale| ≤ k / scale * 2 ^ (-53 : Int)) :
    |a * scale - k| ≤ k * 2 ^ (-53 : Int) := by
  have hscale : (0 : Rat) < scale := by exact_mod_cast hpos
  have hle := mul_le_mul_of_nonneg_right ha hscale.le
  rwa [← abs_of_pos hscale, ← abs_mul, abs_of_pos hscale, sub_mul, div_mul_cancel₀ _ hscale.ne',
    mul_right_comm, div_mul_cancel₀ _ hscale.ne'] at hle

theorem regular_of_near (hk : k < 2 ^ (53 : Nat)) (h : |a - k| ≤ k * 2 ^ (-53 : Int)) :
    Regular a := by
  have hunit : (2 : Rat) ^ (-53 : Int) = 1 / 9007199254740992 := by norm_num
  rw [hunit, abs_le] at h
  rcases Nat.eq_zero_or_pos k with rfl | hone
  · left
    rw [Nat.cast_zero] at h
    linarith
  · have hone' : (1 : Rat) ≤ k := by exact_mod_cast hone
    have hk' : (k : Rat) ≤ 9007199254740992 := by exact_mod_cast hk.le
    apply regular_of_bounds
    · norm_num
      linarith
    · norm_num
      linarith

/-- A whole number that was rounded twice is off by one part in `2 ^ 52` and a little more. With 51
bits, this is less than a half. -/
theorem abs_sub_lt_half (hk : k < 2 ^ (51 : Nat)) (ha : |a - k| ≤ k * 2 ^ (-53 : Int))
    (hb : |b - a| ≤ a * 2 ^ (-53 : Int)) : |b - k| < 1 / 2 := by
  have hbound : (k : Rat) ≤ 2251799813685247 := by
    have : k ≤ 2251799813685247 := by omega
    exact_mod_cast this
  have hunit : (2 : Rat) ^ (-53 : Int) = 1 / 9007199254740992 := by norm_num
  rw [hunit, abs_le] at ha hb
  rw [abs_lt]
  constructor <;> linarith

/-- **A quotient of 51 bits that was rounded, times the divisor, is rounded to the numerator.** -/
theorem toIntRounded?_mul_of_near (hn : n.natAbs < 2 ^ (51 : Nat)) (hpos : 0 < scale)
    (hscale : scale < 2 ^ (32 : Nat)) (hx : x.Near (n < 0) (n.natAbs / scale)) :
    (x.mul (ofNat scale)).toIntRounded? = some n := by
  obtain ⟨a, ha, herror⟩ := hx
  have hproduct := abs_mul_sub_le hpos herror
  have hregular := regular_of_near (by omega) hproduct
  obtain ⟨b, hb, hround⟩ := (isRounded_mul ha (hasMagnitude_ofNat (by omega)) hregular).near
  rw [toIntRounded?_eq hb (abs_sub_lt_half hn hproduct hround), Bool.bne_false]
  by_cases hneg : n < 0
  · rw [decide_eq_true hneg, if_pos rfl]
    congr 1
    omega
  · rw [decide_eq_false hneg, if_neg Bool.false_ne_true]
    congr 1
    omega

end Binary64

namespace Value

/-! ## Values -/

theorem abs_exact (v : Value) : |v.exact| = v.raw.natAbs / v.divisor := by
  rw [exact, abs_div, Nat.abs_cast, Nat.cast_natAbs, Int.cast_abs]

/-- **The engineering value of an integer of 53 bits is the exact one, rounded once.** The integer and
the divisor are numbers themselves, so only their quotient is rounded. -/
theorem isRounded_toBinary64 (v : Value) (hraw : v.raw.natAbs < 2 ^ (53 : Nat))
    (hdivisor : v.divisor < 2 ^ (32 : Nat)) :
    v.toBinary64.IsRounded (v.raw < 0) |v.exact| := by
  have hregular := Binary64.regular_div hraw v.divisor_pos hdivisor
  rw [abs_exact]
  cases v with
  | unsigned raw =>
    rw [toBinary64, Value.raw, Binary64.ofNat, decide_eq_false (by omega)]
    exact Binary64.isRounded_round _ Nat.one_pos hregular
  | signed raw => exact Binary64.isRounded_round _ Nat.one_pos hregular
  | scaled raw divisor divisor_pos =>
    have hpos : (0 : Rat) < divisor := by exact_mod_cast divisor_pos
    rw [← Bool.bne_false (decide _)]
    exact Binary64.isRounded_div (Binary64.hasMagnitude_ofInt hraw)
      (Binary64.hasMagnitude_ofNat (Nat.lt_trans hdivisor (by decide))) hpos hregular

theorem divisor_eq_of_suits {v : Value} {f : Field} (h : v.Suits f) :
    v.divisor = f.scale.toNat := by
  cases v with
  | unsigned raw => rw [h.1]; rfl
  | signed raw => rw [h.1]; rfl
  | scaled raw divisor divisor_pos => exact h.2

end Value

/-! ## Fields -/

namespace Field

theorem natAbs_lt_of_holds {f : Field} (hf : f.Valid) {raw : Int} (h : f.holds raw = true) :
    raw.natAbs < 2 ^ f.width := by
  have hcast := Bits.natCast_two_pow f.width
  cases hsigned : f.signed with
  | true =>
    have hbounds := (holds_iff_of_signed hsigned raw).1 h
    have hwidth := hf.width_pos
    have hhalf : (2 : Int) ^ f.width = 2 * 2 ^ (f.width - 1) := by
      rw [← Int.pow_succ', Nat.sub_add_cancel hwidth]
    omega
  | false =>
    have hbounds := (holds_iff_of_unsigned hsigned raw).1 h
    omega

variable {f : Field} {value : Value}

theorem raw_and_divisor_lt (hf : f.Valid) (hnarrow : f.width ≤ 51) (hsuits : value.Suits f)
    (hholds : f.holds value.raw = true) :
    value.raw.natAbs < 2 ^ (51 : Nat) ∧ value.divisor < 2 ^ (32 : Nat) := by
  constructor
  · exact Nat.lt_of_lt_of_le (natAbs_lt_of_holds hf hholds) (Nat.pow_le_pow_right (by decide) hnarrow)
  · rw [Value.divisor_eq_of_suits hsuits]
    exact f.scale.toNat_lt

theorem isRounded_toBinary64 (hf : f.Valid) (hnarrow : f.width ≤ 51) (hsuits : value.Suits f)
    (hholds : f.holds value.raw = true) :
    value.toBinary64.IsRounded (value.raw < 0) |value.exact| := by
  obtain ⟨hraw, hdivisor⟩ := raw_and_divisor_lt hf hnarrow hsuits hholds
  exact value.isRounded_toBinary64 (Nat.lt_trans hraw (by decide)) hdivisor

/-- **Scaling an engineering value back and rounding it gives the raw integer.** -/
theorem toIntRounded?_toBinary64 (hf : f.Valid) (hnarrow : f.width ≤ 51) (hsuits : value.Suits f)
    (hholds : f.holds value.raw = true) :
    (value.toBinary64.mul (.ofNat f.scale.toNat)).toIntRounded? = some value.raw := by
  obtain ⟨hraw, hdivisor⟩ := raw_and_divisor_lt hf hnarrow hsuits hholds
  have hnear := (isRounded_toBinary64 hf hnarrow hsuits hholds).near
  rw [Value.abs_exact] at hnear
  rw [← Value.divisor_eq_of_suits hsuits]
  exact Binary64.toIntRounded?_mul_of_near hraw value.divisor_pos hdivisor hnear

theorem quantize_toBinary64 (hf : f.Valid) (hnarrow : f.width ≤ 51) (hsuits : value.Suits f)
    (hholds : f.holds value.raw = true) : f.quantize value.toBinary64 = .ok value.raw := by
  rw [quantize, toIntRounded?_toBinary64 hf hnarrow hsuits hholds]
  exact if_pos hholds

end Field

/-! ## Records -/

/-- The engineering values of a record, with the names of their fields. -/
def Record.numbers (r : Record) : List (String × Binary64) :=
  r.entries.map fun (name, value) => (name, value.toBinary64)

namespace Layout

variable {l : Layout} {payload : Bytes} {place : Field × Nat}

theorem lastListed_numbers {record : Record} {name : String} {value : Value}
    (hnodup : (record.entries.map Prod.fst).Nodup) (h : record.get? name = some value) :
    LastListed record.numbers name value.toBinary64 := by
  obtain ⟨before, behind, hentries, -⟩ := List.lookup_eq_some_iff.1 h
  refine ⟨before.map fun (name, value) => (name, value.toBinary64),
    behind.map fun (name, value) => (name, value.toBinary64), ?_, fun later hlater => ?_⟩
  · rw [Record.numbers, hentries, List.map_append, List.map_cons]
  · obtain ⟨entry, hentry, rfl⟩ := List.mem_map.1 hlater
    rw [hentries, List.map_append, List.map_cons, List.nodup_append] at hnodup
    have hname := (List.nodup_cons.1 hnodup.2.1).1
    rintro rfl
    exact hname (List.mem_map.2 ⟨entry, hentry, rfl⟩)

theorem reportable_of_mem_numbers {pair : String × Binary64}
    (h : pair ∈ (l.recordOf payload).numbers) : l.Reportable pair.1 := by
  obtain ⟨entry, hentry, rfl⟩ := List.mem_map.1 h
  have hname : entry.1 ∈ (l.recordOf payload).entries.map Prod.fst := List.mem_map_of_mem hentry
  rw [map_fst_entries_recordOf] at hname
  obtain ⟨f, hf, hname⟩ := List.mem_map.1 hname
  obtain ⟨hmember, hreported⟩ := List.mem_filter.1 hf
  exact ⟨f, hmember, hname, by simpa using hreported⟩

theorem rawOf_numbers (h : l.frameBits ≤ 8 * payload.length) (hplace : place ∈ l.offsets)
    (hreserved : place.1.reserved = false) (hnarrow : place.1.width ≤ 51) :
    (Cargo.engineering (l.recordOf payload).numbers).rawOf place.1 =
      .ok (rawIn (l.recordOf payload) place.1) := by
  have hvalue := get?_recordOf payload hplace hreserved
  have hat := isValueAt_recordOf h hplace
  have hnodup : ((l.recordOf payload).entries.map Prod.fst).Nodup := by
    rw [map_fst_entries_recordOf]
    exact l.reported_names_nodup
  have hraw : rawIn (l.recordOf payload) place.1 =
      (Value.ofRaw place.1 (place.1.rawOfBits (slice payload place))).raw := by
    rw [rawIn, Cargo.raw?, hvalue]
    rfl
  rw [rawOf_engineering_of_last (lastListed_numbers hnodup hvalue), hraw]
  exact Field.quantize_toBinary64 (valid_of_mem_offsets hplace) hnarrow hat.suits
    ((holds_iff_range _ _).2 hat.inRange)

/-- It makes no difference whether a record is packed from its integers or from its engineering
values. -/
structure PacksAlike (l : Layout) (record : Record) : Prop where
  /-- Neither is refused, and both give the same bytes. This is so with machine integers too. -/
  packed : ∃ packed, l.packRecord record = .ok packed ∧ l.packValues record.numbers = .ok packed ∧
    (Checked.packValues l record.numbers).run = some (.ok packed)
  /-- Each engineering value is the exact one rounded once, and it is scaled back and rounded to the
  raw integer. -/
  recovered : ∀ f ∈ l.reported, ∃ value, record.get? f.name = some value ∧ value.Suits f ∧
    value.toBinary64.IsRounded (value.raw < 0) |value.exact| ∧
    (value.toBinary64.mul (.ofNat f.scale.toNat)).toIntRounded? = some value.raw

theorem exists_place_of_mem {f : Field} (hf : f ∈ l.fields) : ∃ place ∈ l.offsets, place.1 = f := by
  rw [← map_fst_offsetsFrom 0 l.fields] at hf
  exact List.mem_map.1 hf

theorem packValues_numbers (hnarrow : ∀ f ∈ l.fields, f.reserved = false → f.width ≤ 51)
    (h : l.frameBits ≤ 8 * payload.length) :
    l.packValues (l.recordOf payload).numbers =
      .ok (bitsOf (rawIn (l.recordOf payload)) l.fields).toBytes := by
  have hraw : ∀ f ∈ l.fields, f.reserved = false →
      (Cargo.engineering (l.recordOf payload).numbers).rawOf f =
        .ok (rawIn (l.recordOf payload) f) := by
    intro f hf hreserved
    obtain ⟨place, hplace, rfl⟩ := exists_place_of_mem hf
    exact rawOf_numbers h hplace hreserved (hnarrow _ hf hreserved)
  rw [packValues_of_reportable fun _ => reportable_of_mem_numbers, packRaw, writeFields_eq_ok hraw]
  rfl

/-- **Packing the engineering values of what was read is packing the raw integers,** if no reported
field has more than 51 bits. -/
theorem packValues_unpack (l : Layout) (payload : Bytes)
    (hnarrow : ∀ f ∈ l.fields, f.reserved = false → f.width ≤ 51)
    (h : l.frameBits ≤ 8 * payload.length) :
    ∃ record, l.unpack payload = .ok record ∧ l.PacksAlike record := by
  have hvalues := packValues_numbers hnarrow h
  refine ⟨_, unpack_of_le h, ⟨_, packRecord_recordOf h, hvalues, ?_⟩, fun f hf => ?_⟩
  · rw [Checked.run_packValues, hvalues]
  · obtain ⟨hmember, hreported⟩ := List.mem_filter.1 hf
    obtain ⟨place, hplace, rfl⟩ := exists_place_of_mem hmember
    have hreserved : place.1.reserved = false := by simpa using hreported
    have hvalid := valid_of_mem_offsets hplace
    have hat := isValueAt_recordOf h hplace
    have hholds := (holds_iff_range _ _).2 hat.inRange
    have hwidth := hnarrow _ hmember hreserved
    exact ⟨_, get?_recordOf payload hplace hreserved, hat.suits,
      Field.isRounded_toBinary64 hvalid hwidth hat.suits hholds,
      Field.toIntRounded?_toBinary64 hvalid hwidth hat.suits hholds⟩

/-- A number of 51 bits in sevenths, and a gap. -/
def sevenths : Layout where
  fields := [(Field.unsigned "level" 51).withScale 7, .padding "gap" 5]
  fields_valid := ((fieldsFault?_eq_none_iff [] _).1 (by decide)).1
  names_nodup := by decide

/-- The greatest even level is packed again, though no number is exactly a seventh of it. -/
theorem packValues_unpack_sevenths :
    (∀ f ∈ sevenths.fields, f.reserved = false → f.width ≤ 51) ∧
    sevenths.frameBits ≤ 8 * [0xff, 0xff, 0xff, 0xff, 0xff, 0xff, 0xdf].length ∧
    sevenths.packRecord (sevenths.recordOf [0xff, 0xff, 0xff, 0xff, 0xff, 0xff, 0xdf]) =
      .ok [0xff, 0xff, 0xff, 0xff, 0xff, 0xff, 0xc0] ∧
    ∃ record, sevenths.unpack [0xff, 0xff, 0xff, 0xff, 0xff, 0xff, 0xdf] = .ok record ∧
      sevenths.PacksAlike record :=
  ⟨by decide, by decide, rfl, packValues_unpack sevenths _ (by decide) (by decide)⟩

/-- One bit more. -/
def wideSevenths : Layout where
  fields := [(Field.unsigned "level" 52).withScale 7]
  fields_valid := ((fieldsFault?_eq_none_iff [] _).1 (by decide)).1
  names_nodup := by decide

/-- The level `2 ^ 52 - 5` goes back to the next one. -/
example :
    let record := wideSevenths.recordOf [0xff, 0xff, 0xff, 0xff, 0xff, 0xff, 0xb0]
    wideSevenths.packRecord record = .ok [0xff, 0xff, 0xff, 0xff, 0xff, 0xff, 0xb0] ∧
    wideSevenths.packValues record.numbers = .ok [0xff, 0xff, 0xff, 0xff, 0xff, 0xff, 0xc0] := by
  decide

end Layout

end Downlink
