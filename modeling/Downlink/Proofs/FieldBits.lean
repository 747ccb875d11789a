import Downlink.Layout.Unpack

/-!
# Fields as bits

The bits of a field spell its raw integer, in two's complement if the field is signed. Every
integer that the field holds is spelled by its low bits (`rawOfBits_ofInt`), and the value made
of it gives it back (`raw_ofRaw`), so nothing is lost between the wire and a record. Nor is anything
lost the other way: the integer that bits spell is always one that the field holds
(`holds_rawOfBits`), and it is written by the same bits (`ofInt_rawOfBits`).
-/

namespace Downlink

namespace Bits

/-! ## Two's complement -/

theorem natCast_two_pow (k : Nat) : ((2 ^ k : Nat) : Int) = 2 ^ k := by
  norm_cast

theorem two_pow_le_two_pow {i j : Nat} (h : i ≤ j) : (2 : Int) ^ i ≤ 2 ^ j := by
  rw [← natCast_two_pow, ← natCast_two_pow]
  exact_mod_cast Nat.pow_le_pow_right (by decide) h

theorem toNat_ofInt {width : Nat} {n : Int} (h₀ : 0 ≤ n) (h : n < 2 ^ width) :
    ((ofInt width n).toNat : Int) = n := by
  have hlt : n.toNat < 2 ^ width := by
    have := natCast_two_pow width
    omega
  rw [ofInt, Int.emod_eq_of_lt h₀ h, toNat_ofNat, Nat.mod_eq_of_lt hlt, Int.toNat_of_nonneg h₀]

theorem toInt_ofNat (k low : Nat) (sign : Bool) (h : low < 2 ^ k) :
    (ofNat (k + 1) (sign.toNat * 2 ^ k + low)).toInt = low - sign.toNat * 2 ^ k := by
  have hdiv : (sign.toNat * 2 ^ k + low) / 2 ^ k = sign.toNat := by
    rw [Nat.mul_comm, Nat.mul_add_div (Nat.two_pow_pos k), Nat.div_eq_of_lt h, Nat.add_zero]
  have hmod : (sign.toNat * 2 ^ k + low) % 2 ^ k = low := by
    rw [Nat.mul_comm, Nat.mul_add_mod, Nat.mod_eq_of_lt h]
  have hsign : sign.toNat % 2 = sign.toNat := by cases sign <;> rfl
  simp only [ofNat, toInt, length_ofNat, toNat_ofNat, Nat.toNat_testBit, hdiv, hmod, hsign]

theorem toInt_ofInt {width : Nat} {n : Int} (hwidth : 1 ≤ width) (hmin : -2 ^ (width - 1) ≤ n)
    (hmax : n < 2 ^ (width - 1)) : (ofInt width n).toInt = n := by
  obtain ⟨k, rfl⟩ : ∃ k, width = k + 1 := ⟨width - 1, by omega⟩
  rw [Nat.add_sub_cancel] at hmin hmax
  have hcast := natCast_two_pow k
  have hpow : (2 : Int) ^ (k + 1) = 2 * 2 ^ k := by rw [Int.pow_succ, Int.mul_comm]
  by_cases hneg : n < 0
  · -- a negative number is written as it stands above `-2 ^ k`, with the first bit set
    have hmod : n % 2 ^ (k + 1) = 2 ^ k + (n + 2 ^ k) := by
      rw [← Int.add_emod_right, Int.emod_eq_of_lt] <;> omega
    have hnat : (n % 2 ^ (k + 1)).toNat = true.toNat * 2 ^ k + (n + 2 ^ k).toNat := by
      rw [hmod, Bool.toNat_true, Nat.one_mul]
      omega
    rw [ofInt, hnat, toInt_ofNat k _ true (by omega), Bool.toNat_true]
    omega
  · have hmod : n % 2 ^ (k + 1) = n := Int.emod_eq_of_lt (by omega) (by omega)
    have hnat : (n % 2 ^ (k + 1)).toNat = false.toNat * 2 ^ k + n.toNat := by
      rw [hmod, Bool.toNat_false, Nat.zero_mul, Nat.zero_add]
    rw [ofInt, hnat, toInt_ofNat k _ false (by omega), Bool.toNat_false]
    omega

theorem ofInt_toNat (bs : Bits) : ofInt bs.length bs.toNat = bs := by
  have hlt : (bs.toNat : Int) < 2 ^ bs.length := by
    have := natCast_two_pow bs.length
    have := toNat_lt bs
    omega
  rw [ofInt, Int.emod_eq_of_lt (Int.natCast_nonneg _) hlt, Int.toNat_natCast, ofNat_toNat]

theorem exists_toInt_eq (bs : Bits) : ∃ k : Int, bs.toInt = bs.toNat + 2 ^ bs.length * k := by
  cases bs with
  | nil => exact ⟨0, rfl⟩
  | cons b bs =>
    refine ⟨-b.toNat, ?_⟩
    have hpow : (2 : Int) ^ (bs.length + 1) = 2 * 2 ^ bs.length := by
      rw [Int.pow_succ, Int.mul_comm]
    have hcast := natCast_two_pow bs.length
    simp only [toInt, toNat, List.length_cons, hpow]
    cases b with
    | false => simp
    | true =>
      simp
      omega

theorem toInt_emod (bs : Bits) : bs.toInt % 2 ^ bs.length = bs.toNat := by
  have hcast := natCast_two_pow bs.length
  have hlt := toNat_lt bs
  obtain ⟨k, hk⟩ := exists_toInt_eq bs
  rw [hk, Int.add_mul_emod_self_left, Int.emod_eq_of_lt (Int.natCast_nonneg _) (by omega)]

theorem ofInt_toInt (bs : Bits) : ofInt bs.length bs.toInt = bs := by
  rw [ofInt, toInt_emod, Int.toNat_natCast, ofNat_toNat]

theorem toInt_bounds {bs : Bits} (h : 1 ≤ bs.length) :
    -2 ^ (bs.length - 1) ≤ bs.toInt ∧ bs.toInt < 2 ^ (bs.length - 1) := by
  cases bs with
  | nil => simp at h
  | cons b bs =>
    have hcast := natCast_two_pow bs.length
    have hlt := toNat_lt bs
    simp only [toInt, List.length_cons, Nat.add_sub_cancel]
    cases b <;> simp <;> omega

end Bits

namespace Field

/-! ## Raw integers -/

/-- The raw integer that a field's bits spell. -/
def rawOfBits (f : Field) (bits : Bits) : Int :=
  if f.signed then bits.toInt else bits.toNat

theorem holds_iff_of_signed {f : Field} (hf : f.signed = true) (raw : Int) :
    f.holds raw = true ↔ -2 ^ (f.width - 1) ≤ raw ∧ raw < 2 ^ (f.width - 1) := by
  simp only [holds, rawMin, rawMax, hf, if_true, Bool.and_eq_true, decide_eq_true_eq]
  omega

theorem holds_iff_of_unsigned {f : Field} (hf : f.signed = false) (raw : Int) :
    f.holds raw = true ↔ 0 ≤ raw ∧ raw < 2 ^ f.width := by
  simp only [holds, rawMin, rawMax, hf, Bool.false_eq_true, if_false, Bool.and_eq_true,
    decide_eq_true_eq]
  omega

theorem rawOfBits_ofInt {f : Field} (hf : f.Valid) {raw : Int} (h : f.holds raw = true) :
    f.rawOfBits (Bits.ofInt f.width raw) = raw := by
  unfold rawOfBits
  cases hsigned : f.signed with
  | true =>
    obtain ⟨hmin, hmax⟩ := (holds_iff_of_signed hsigned raw).1 h
    exact Bits.toInt_ofInt hf.width_pos hmin hmax
  | false =>
    obtain ⟨hmin, hmax⟩ := (holds_iff_of_unsigned hsigned raw).1 h
    exact Bits.toNat_ofInt hmin hmax

theorem holds_rawOfBits {f : Field} (hf : f.Valid) {bits : Bits} (h : bits.length = f.width) :
    f.holds (f.rawOfBits bits) = true := by
  unfold rawOfBits
  cases hsigned : f.signed with
  | true =>
    have hbounds := Bits.toInt_bounds (h ▸ hf.width_pos)
    rw [h] at hbounds
    exact (holds_iff_of_signed hsigned _).2 hbounds
  | false =>
    have hcast := Bits.natCast_two_pow f.width
    have hlt := Bits.toNat_lt bits
    rw [h] at hlt
    refine (holds_iff_of_unsigned hsigned _).2 ⟨Int.natCast_nonneg _, ?_⟩
    simp only [Bool.false_eq_true, if_false]
    omega

theorem ofInt_rawOfBits {f : Field} {bits : Bits} (h : bits.length = f.width) :
    Bits.ofInt f.width (f.rawOfBits bits) = bits := by
  rw [← h, rawOfBits]
  cases f.signed
  · exact Bits.ofInt_toNat bits
  · exact Bits.ofInt_toInt bits

theorem readRaw_eq (f : Field) (r : BitReader) :
    f.readRaw r = (r.read f.name f.width).map fun (bits, r) => (f.rawOfBits bits, r) := by
  unfold readRaw rawOfBits BitReader.readSigned BitReader.readUnsigned
  cases f.signed <;> cases r.read f.name f.width <;> rfl

end Field

namespace Value

theorem raw_ofRaw {f : Field} (hf : f.Valid) {raw : Int} (h : f.holds raw = true) :
    (ofRaw f raw).raw = raw := by
  have hwidth : f.width ≤ 64 := hf.width_le
  unfold ofRaw
  split
  · rfl
  · cases hsigned : f.signed with
    | true =>
      obtain ⟨hmin, hmax⟩ := (Field.holds_iff_of_signed hsigned raw).1 h
      have hpow : (2 : Int) ^ (f.width - 1) ≤ 2 ^ 63 :=
        Bits.two_pow_le_two_pow (by omega)
      exact Int64.toInt_ofInt_of_le (by omega) (by omega)
    | false =>
      obtain ⟨hmin, hmax⟩ := (Field.holds_iff_of_unsigned hsigned raw).1 h
      have hpow : (2 : Int) ^ f.width ≤ 2 ^ 64 := Bits.two_pow_le_two_pow hwidth
      have hlt : raw.toNat < 2 ^ 64 := by omega
      simp only [Bool.false_eq_true, if_false, Value.raw, UInt64.toNat_ofNat',
        Nat.mod_eq_of_lt hlt]
      omega

end Value

end Downlink
