import Downlink.Proofs.CheckedDecoding

/-!
# Numbers by places

What a byte string says can be told without a reader. Bit `i` is a bit of byte `i / 8`, the first of
a byte being its most significant one (`Bytes.bitAt`). From a place on, bits spell a natural number,
each doubling what those in front of it spell and adding itself (`Bytes.natAt`). As many bits also
spell one integer of the range of two's complement, the one that is congruent to that number
(`Spells`, `spells_iff`).

Readers take bit strings apart instead. Both ways come to the same (`natAt_eq`,
`Field.spells_iff`).
-/

namespace Downlink

namespace Bytes

/-- The bit at a place; behind the end there are zeros. -/
def bitAt (bytes : Bytes) (place : Nat) : Bool :=
  (bytes[place / 8]?.getD 0).toNat.testBit (7 - place % 8)

/-- The natural number that so many bits spell from a place on. -/
def natAt (bytes : Bytes) (place : Nat) : Nat → Nat
  | 0 => 0
  | width + 1 => 2 * natAt bytes place width + (bitAt bytes (place + width)).toNat

variable {bytes : Bytes} {place width : Nat}

/-! ## Bits -/

theorem getElem?_ofBytes (h : place < 8 * bytes.length) :
    (Bits.ofBytes bytes)[place]? = some (bytes.bitAt place) := by
  have hlt : place / 8 < bytes.length := by omega
  have hbyte : bytes[place / 8]? = some bytes[place / 8] := List.getElem?_eq_getElem hlt
  have hleft : 8 - place % 8 = (7 - place % 8) + 1 := by omega
  have hdrop : (Bits.ofBytes bytes)[place]? = ((Bits.ofBytes bytes).drop place)[0]? := by
    rw [List.getElem?_drop, Nat.add_zero]
  rw [hdrop, Checked.drop_ofBytes_eq hbyte, hleft, Bits.ofNat, bitAt, hbyte]
  rfl

theorem bitAt_eq_getD (bytes : Bytes) (place : Nat) :
    bytes.bitAt place = ((Bits.ofBytes bytes)[place]?).getD false := by
  by_cases h : place < 8 * bytes.length
  · rw [getElem?_ofBytes h, Option.getD_some]
  · have hbyte : bytes[place / 8]? = none := List.getElem?_eq_none (by omega)
    have hbit : (Bits.ofBytes bytes)[place]? = none :=
      List.getElem?_eq_none (by rw [Bits.length_ofBytes]; omega)
    rw [hbit, bitAt, hbyte]
    exact Nat.zero_testBit _

/-! ## Numbers -/

theorem natAt_eq (h : place + width ≤ 8 * bytes.length) :
    bytes.natAt place width = Bits.toNat (((Bits.ofBytes bytes).drop place).take width) := by
  induction width with
  | zero => rw [natAt, List.take_zero, Bits.toNat]
  | succ width ih =>
    have hbit : ((Bits.ofBytes bytes).drop place)[width]? = some (bytes.bitAt (place + width)) := by
      rw [List.getElem?_drop, getElem?_ofBytes (by omega)]
    rw [natAt, ih (by omega), List.take_add_one, hbit, Bits.toNat_append, Nat.mul_comm 2]
    simp [Bits.toNat]

end Bytes

/-! ## Integers -/

/-- An integer is the one that the bits of a number spell: the number itself or, with a sign, that of
the range of two's complement which is congruent to it. -/
def Spells (signed : Bool) (width n : Nat) (raw : Int) : Prop :=
  if signed then -2 ^ (width - 1) ≤ raw ∧ raw < 2 ^ (width - 1) ∧ (2 : Int) ^ width ∣ raw - n
  else raw = n

theorem eq_bmod_of_dvd {width n : Nat} {raw : Int} (hwidth : 1 ≤ width)
    (hmin : -2 ^ (width - 1) ≤ raw) (hmax : raw < 2 ^ (width - 1))
    (hdvd : (2 : Int) ^ width ∣ raw - n) : raw = (n : Int).bmod (2 ^ width) := by
  obtain ⟨k, hk⟩ := hdvd
  have hpow : 2 ^ (width - 1 + 1) = 2 * 2 ^ (width - 1) := Nat.pow_succ'
  rw [Nat.sub_add_cancel hwidth] at hpow
  have hcast := Bits.natCast_two_pow (width - 1)
  have hn : (n : Int) = raw + (2 ^ width : Nat) * -k := by
    rw [Bits.natCast_two_pow, Int.mul_neg, ← hk]
    omega
  rw [hn, Int.add_mul_bmod_self_left]
  exact (Int.bmod_eq_of_le (by omega) (by omega)).symm

/-- **Bits spell one integer, as a natural number and in two's complement.** -/
theorem spells_iff {bits : Bits} (h : 1 ≤ bits.length) (signed : Bool) (raw : Int) :
    Spells signed bits.length bits.toNat raw ↔
      raw = if signed then bits.toInt else bits.toNat := by
  cases signed with
  | false => exact Iff.rfl
  | true =>
    obtain ⟨hmin, hmax⟩ := Bits.toInt_bounds h
    obtain ⟨k, hk⟩ := Bits.exists_toInt_eq bits
    have hdvd : (2 : Int) ^ bits.length ∣ bits.toInt - bits.toNat := ⟨k, by rw [hk]; omega⟩
    simp only [Spells, if_true]
    constructor
    · rintro ⟨hmin', hmax', hdvd'⟩
      rw [eq_bmod_of_dvd h hmin' hmax' hdvd', ← eq_bmod_of_dvd h hmin hmax hdvd]
    · rintro rfl
      exact ⟨hmin, hmax, hdvd⟩

theorem Field.spells_iff {f : Field} (hf : f.Valid) {bytes : Bytes} {place : Nat}
    (h : place + f.width ≤ 8 * bytes.length) (raw : Int) :
    Spells f.signed f.width (bytes.natAt place f.width) raw ↔
      raw = f.rawOfBits (((Bits.ofBytes bytes).drop place).take f.width) := by
  have hlength : (((Bits.ofBytes bytes).drop place).take f.width).length = f.width := by
    rw [List.length_take, List.length_drop, Bits.length_ofBytes]
    omega
  have hbits := Downlink.spells_iff (by rw [hlength]; exact hf.width_pos) f.signed raw
  rw [hlength, ← Bytes.natAt_eq h] at hbits
  rw [hbits, Field.rawOfBits, Bytes.natAt_eq h]

end Downlink
