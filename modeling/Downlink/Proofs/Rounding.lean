import Mathlib.Algebra.Order.Field.Power
import Mathlib.Data.Rat.Cast.Order
import Mathlib.Tactic.FieldSimp
import Mathlib.Tactic.Linarith
import Mathlib.Tactic.NormNum
import Mathlib.Tactic.Positivity
import Mathlib.Tactic.Ring
import Downlink.Binary64
import Downlink.Bits

/-!
# Rounding to binary64 numbers

A quotient is rounded to a multiple of a power of two, its unit. The unit is found from the logarithms
of both parts (`floorLog2_bounds`): with it, the quotient lies in the range of the significands of 53
bits (`div_unit_bounds`), as long as it is neither too great nor too small (`Regular`).

The multiple is off by half a unit at most, so the number is off by one part in `2 ^ 53` at most
(`near_round`). No other number of 53 bits is nearer: those above the unit are multiples of it too,
and those with a smaller unit all lie below the range. If another one is as near, the significand is
even (`nearest_round`).

A quotient and a product of numbers are such a rounded quotient (`isRounded_div`, `isRounded_mul`),
whole numbers of 53 bits are not changed (`hasMagnitude_round_one`), and a number that lies nearer
than a half to a whole number is rounded to it (`toIntRounded?_eq`).
-/

namespace Downlink

variable {num den : Nat}

/-! ## Shifts and powers of two -/

theorem two_zpow_pos (e : Int) : (0 : Rat) < 2 ^ e :=
  zpow_pos two_pos e

theorem two_zpow_add (d e : Int) : (2 : Rat) ^ (d + e) = 2 ^ d * 2 ^ e :=
  zpow_add₀ two_ne_zero d e

theorem cast_shiftLeft (n k : Nat) : ((n <<< k : Nat) : Rat) = n * 2 ^ (k : Int) := by
  rw [Nat.shiftLeft_eq, Nat.cast_mul, zpow_natCast]
  congr 1
  exact_mod_cast rfl

theorem div_shiftLeft (num den : Nat) {e : Int} (he : 0 ≤ e) :
    (num : Rat) / (den <<< e.toNat : Nat) = num / den / 2 ^ e := by
  rw [cast_shiftLeft, Int.toNat_of_nonneg he, div_mul_eq_div_div]

theorem shiftLeft_div (num den : Nat) {e : Int} (he : e ≤ 0) :
    ((num <<< (-e).toNat : Nat) : Rat) / den = num / den / 2 ^ e := by
  rw [cast_shiftLeft, Int.toNat_of_nonneg (Int.neg_nonneg_of_nonpos he), zpow_neg, ← div_eq_mul_inv,
    div_right_comm]

/-! ## The nearest whole number -/

theorem eq_of_abs_sub_lt_one {m n : Nat} (h : |(m : Rat) - n| < 1) : m = n := by
  have hint : |(m : Int) - n| < 1 := by exact_mod_cast h
  have := Int.abs_lt_one_iff.1 hint
  omega

/-- How far `n` is from `num / den`, in halves of `1 / den`. -/
def halvesOff (n num den : Nat) : Nat :=
  (2 * (n * den : Nat) - 2 * num : Int).natAbs

theorem abs_sub_div_eq (n num : Nat) (hden : 0 < den) :
    |(n : Rat) - num / den| = halvesOff n num den / (2 * den : Nat) := by
  have hpos : (0 : Rat) < (2 * den : Nat) := by
    exact_mod_cast Nat.mul_pos Nat.two_pos hden
  have hne : (den : Rat) ≠ 0 := by exact_mod_cast hden.ne'
  rw [eq_div_iff hpos.ne', ← Nat.abs_cast (2 * den), ← abs_mul, halvesOff, Nat.cast_natAbs,
    Int.cast_abs]
  congr 1
  push_cast
  field_simp

theorem one_half_eq (hden : 0 < den) : (1 / 2 : Rat) = den / (2 * den : Nat) := by
  have hne : (den : Rat) ≠ 0 := by exact_mod_cast hden.ne'
  push_cast
  field_simp

theorem abs_sub_div_le_half_iff (n num : Nat) (hden : 0 < den) :
    |(n : Rat) - num / den| ≤ 1 / 2 ↔ halvesOff n num den ≤ den := by
  have hpos : (0 : Rat) < (2 * den : Nat) := by
    exact_mod_cast Nat.mul_pos Nat.two_pos hden
  rw [abs_sub_div_eq n num hden, one_half_eq hden, div_le_div_iff_of_pos_right hpos, Nat.cast_le]

theorem abs_sub_div_lt_half_iff (n num : Nat) (hden : 0 < den) :
    |(n : Rat) - num / den| < 1 / 2 ↔ halvesOff n num den < den := by
  have hpos : (0 : Rat) < (2 * den : Nat) := by
    exact_mod_cast Nat.mul_pos Nat.two_pos hden
  rw [abs_sub_div_eq n num hden, one_half_eq hden, div_lt_div_iff_of_pos_right hpos, Nat.cast_lt]

/-- The whole number that is taken lies within a half of the quotient, and it is even if it lies at a
half. -/
theorem halvesOff_roundQuotient (num : Nat) (hden : 0 < den) :
    halvesOff (roundQuotient num den) num den ≤ den ∧
      (halvesOff (roundQuotient num den) num den = den → roundQuotient num den % 2 = 0) := by
  have hsplit := Nat.div_add_mod' num den
  have hleft := Nat.mod_lt num hden
  unfold halvesOff roundQuotient
  dsimp only
  split
  · omega
  · rw [Nat.add_mul]
    omega

theorem roundQuotient_near (num : Nat) (hden : 0 < den) :
    |(roundQuotient num den : Rat) - num / den| ≤ 1 / 2 :=
  (abs_sub_div_le_half_iff _ _ hden).2 (halvesOff_roundQuotient num hden).1

theorem roundQuotient_even (hden : 0 < den)
    (h : 1 / 2 ≤ |(roundQuotient num den : Rat) - num / den|) : roundQuotient num den % 2 = 0 := by
  obtain ⟨hle, heven⟩ := halvesOff_roundQuotient num hden
  refine heven (Nat.le_antisymm hle (not_lt.1 fun hlt => ?_))
  exact absurd ((abs_sub_div_lt_half_iff _ _ hden).2 hlt) (not_lt.2 h)

theorem roundQuotientUp_eq {n : Nat} (hden : 0 < den) (h : |(n : Rat) - num / den| < 1 / 2) :
    roundQuotientUp num den = n := by
  have hoff := (abs_sub_div_lt_half_iff n num hden).1 h
  have hsplit := Nat.div_add_mod' num den
  have hleft := Nat.mod_lt num hden
  have hdistance : halvesOff (roundQuotientUp num den) num den ≤ den := by
    unfold halvesOff roundQuotientUp
    dsimp only
    split
    · omega
    · rw [Nat.add_mul]
      omega
  have hnear := (abs_sub_div_le_half_iff _ _ hden).2 hdistance
  apply eq_of_abs_sub_lt_one
  calc |(roundQuotientUp num den : Rat) - n|
      ≤ |(roundQuotientUp num den : Rat) - num / den| + |(num : Rat) / den - n| := abs_sub_le _ _ _
    _ < 1 := by
        rw [abs_sub_comm ((num : Rat) / den)]
        linarith

/-! ## The exponent -/

theorem log2_bounds {n : Nat} (hn : 0 < n) :
    (2 : Rat) ^ (n.log2 : Int) ≤ n ∧ (n : Rat) < 2 ^ ((n.log2 : Int) + 1) := by
  have hle := Nat.log2_self_le hn.ne'
  have hlt : n < 2 ^ (n.log2 + 1) := Nat.lt_log2_self
  constructor
  · rw [zpow_natCast]
    exact_mod_cast hle
  · rw [show (n.log2 : Int) + 1 = ((n.log2 + 1 : Nat) : Int) from rfl, zpow_natCast]
    exact_mod_cast hlt

theorem shiftLeft_le_iff (num : Nat) (hden : 0 < den) (e : Int) :
    (if 0 ≤ e then den <<< e.toNat ≤ num else den ≤ num <<< (-e).toNat) ↔
      (2 : Rat) ^ e ≤ num / den := by
  have hpos : (0 : Rat) < den := by exact_mod_cast hden
  rw [le_div_iff₀ hpos]
  split
  · next he =>
    rw [← @Nat.cast_le Rat, cast_shiftLeft, Int.toNat_of_nonneg he, mul_comm]
  · rw [← @Nat.cast_le Rat, cast_shiftLeft, Int.toNat_of_nonneg (by omega), zpow_neg,
      ← div_eq_mul_inv, le_div_iff₀ (two_zpow_pos e), mul_comm]

theorem floorLog2_bounds (hnum : 0 < num) (hden : 0 < den) :
    (2 : Rat) ^ floorLog2 num den ≤ num / den ∧
      (num : Rat) / den < 2 ^ (floorLog2 num den + 1) := by
  have hpos : (0 : Rat) < den := by exact_mod_cast hden
  obtain ⟨hnumLe, hnumLt⟩ := log2_bounds hnum
  obtain ⟨hdenLe, hdenLt⟩ := log2_bounds hden
  -- the difference of the logarithms is the one asked for, or one too much
  have hlow : (2 : Rat) ^ ((num.log2 : Int) - den.log2 - 1) ≤ num / den := by
    rw [le_div_iff₀ hpos]
    calc (2 : Rat) ^ ((num.log2 : Int) - den.log2 - 1) * den
        ≤ 2 ^ ((num.log2 : Int) - den.log2 - 1) * 2 ^ ((den.log2 : Int) + 1) :=
          mul_le_mul_of_nonneg_left hdenLt.le (two_zpow_pos _).le
      _ = 2 ^ (num.log2 : Int) := by rw [← two_zpow_add]; congr 1; omega
      _ ≤ num := hnumLe
  have hhigh : (num : Rat) / den < 2 ^ ((num.log2 : Int) - den.log2 + 1) := by
    rw [div_lt_iff₀ hpos]
    calc (num : Rat) < 2 ^ ((num.log2 : Int) + 1) := hnumLt
      _ = 2 ^ ((num.log2 : Int) - den.log2 + 1) * 2 ^ (den.log2 : Int) := by
          rw [← two_zpow_add]; congr 1; omega
      _ ≤ 2 ^ ((num.log2 : Int) - den.log2 + 1) * den :=
          mul_le_mul_of_nonneg_left hdenLe (two_zpow_pos _).le
  unfold floorLog2
  simp only [shiftLeft_le_iff num hden]
  split
  · next hreached => exact ⟨hreached, hhigh⟩
  · next hnot =>
    rw [Int.sub_add_cancel]
    exact ⟨hlow, not_le.1 hnot⟩

namespace Binary64

/-! ## Numbers and their magnitudes -/

/-- A finite number with this sign and magnitude. -/
def HasMagnitude (x : Binary64) (negative : Bool) (r : Rat) : Prop :=
  ∃ (m : Nat) (e : Int), x = .finite negative m e ∧ (m : Rat) * 2 ^ e = r

/-- The exponent of the number that a quotient is rounded to. -/
def unit (num den : Nat) : Int :=
  max (floorLog2 num den - 52) (-1074)

/-- A quotient rounded to a multiple of `2 ^ e`. -/
def roundAt (num den : Nat) (e : Int) : Nat :=
  if 0 ≤ e then roundQuotient num (den <<< e.toNat) else roundQuotient (num <<< (-e).toNat) den

theorem exists_roundAt_eq (num : Nat) (hden : 0 < den) (e : Int) :
    ∃ num' den' : Nat, 0 < den' ∧ (num' : Rat) / den' = num / den / 2 ^ e ∧
      roundAt num den e = roundQuotient num' den' := by
  unfold roundAt
  split
  · next he =>
    refine ⟨num, den <<< e.toNat, ?_, div_shiftLeft num den he, rfl⟩
    rw [Nat.shiftLeft_eq]
    exact Nat.mul_pos hden (Nat.two_pow_pos _)
  · exact ⟨num <<< (-e).toNat, den, hden, shiftLeft_div num den (by omega), rfl⟩

theorem roundAt_near (num : Nat) (hden : 0 < den) (e : Int) :
    |(roundAt num den e : Rat) - num / den / 2 ^ e| ≤ 1 / 2 := by
  obtain ⟨num', den', hden', hquotient, hround⟩ := exists_roundAt_eq num hden e
  rw [hround, ← hquotient]
  exact roundQuotient_near num' hden'

theorem roundAt_even (hden : 0 < den) {e : Int}
    (h : 1 / 2 ≤ |(roundAt num den e : Rat) - num / den / 2 ^ e|) : roundAt num den e % 2 = 0 := by
  obtain ⟨num', den', hden', hquotient, hround⟩ := exists_roundAt_eq num hden e
  rw [hround, ← hquotient] at h
  rw [hround]
  exact roundQuotient_even hden' h

theorem roundAt_eq {n : Nat} (hden : 0 < den) {e : Int} (h : (num : Rat) / den = n * 2 ^ e) :
    roundAt num den e = n := by
  have hnear := roundAt_near num hden e
  rw [h, mul_div_cancel_right₀ _ (two_zpow_pos e).ne'] at hnear
  exact eq_of_abs_sub_lt_one (hnear.trans_lt (by norm_num))

/-- With a significand of `2 ^ 53` the exponent is one more. -/
theorem round_eq (negative : Bool) (hnum : 0 < num) (hden : 0 < den) :
    round negative num den =
      if roundAt num den (unit num den) = 2 * leastNormal then
        if 971 < unit num den + 1 then .infinity negative
        else .finite negative leastNormal (unit num den + 1)
      else if 971 < unit num den then .infinity negative
      else .finite negative (roundAt num den (unit num den)) (unit num den) := by
  have hne : ¬ (num = 0 ∨ den = 0) := by omega
  by_cases hcarry : roundAt num den (unit num den) = 2 * leastNormal
  · rw [if_pos hcarry]
    unfold roundAt unit at hcarry
    simp only [round, if_neg hne, hcarry, if_true]
    rfl
  · rw [if_neg hcarry]
    unfold roundAt unit at hcarry
    simp only [round, if_neg hne, if_neg hcarry]
    rfl

theorem exists_round_eq (negative : Bool) (hnum : 0 < num) (hden : 0 < den)
    (hunit : unit num den < 971) :
    ∃ (m : Nat) (e : Int), round negative num den = .finite negative m e ∧
      (-1074 ≤ e ∧ e ≤ 971) ∧
      (m : Rat) * 2 ^ e = roundAt num den (unit num den) * 2 ^ unit num den ∧
      (roundAt num den (unit num den) = 2 * leastNormal ∧ m = leastNormal ∨
        roundAt num den (unit num den) ≠ 2 * leastNormal ∧ m = roundAt num den (unit num den)) := by
  have hleast : -1074 ≤ unit num den := le_max_right _ _
  rw [round_eq negative hnum hden]
  split
  · next hcarry =>
    rw [if_neg (by omega)]
    refine ⟨_, _, rfl, by omega, ?_, .inl ⟨hcarry, rfl⟩⟩
    rw [hcarry, two_zpow_add]
    push_cast
    ring
  · next hcarry =>
    rw [if_neg (by omega)]
    exact ⟨_, _, rfl, by omega, rfl, .inr ⟨hcarry, rfl⟩⟩

/-! ## The error of rounding -/

/-- Zero, and the numbers that have the full precision and are finite by far. -/
def Regular (r : Rat) : Prop :=
  r = 0 ∨ ((2 : Rat) ^ (-1022 : Int) ≤ r ∧ r < 2 ^ (1023 : Int))

theorem unit_of_regular (hnum : 0 < num) (hden : 0 < den) (h : Regular (num / den)) :
    unit num den = floorLog2 num den - 52 ∧ unit num den < 971 := by
  have hquotient : (num : Rat) / den ≠ 0 := by positivity
  obtain ⟨hnormal, hfinite⟩ := h.resolve_left hquotient
  obtain ⟨hfloor, hceil⟩ := floorLog2_bounds hnum hden
  have hlow : -1022 < floorLog2 num den + 1 :=
    (zpow_lt_zpow_iff_right₀ one_lt_two).1 (hnormal.trans_lt hceil)
  have hhigh : floorLog2 num den < 1023 :=
    (zpow_lt_zpow_iff_right₀ one_lt_two).1 (hfloor.trans_lt hfinite)
  unfold unit
  omega

/-- A finite number with this sign, and with this magnitude up to one part in `2 ^ 53`. -/
def Near (x : Binary64) (negative : Bool) (r : Rat) : Prop :=
  ∃ r', x.HasMagnitude negative r' ∧ |r' - r| ≤ r * 2 ^ (-53 : Int)

theorem HasMagnitude.near {x : Binary64} {negative : Bool} {r : Rat} (hr : 0 ≤ r)
    (h : x.HasMagnitude negative r) : x.Near negative r := by
  refine ⟨r, h, ?_⟩
  rw [sub_self, abs_zero]
  exact mul_nonneg hr (two_zpow_pos _).le

theorem abs_mul_two_zpow_sub (n r : Rat) (e : Int) :
    |n * 2 ^ e - r| = |n - r / 2 ^ e| * 2 ^ e := by
  rw [← abs_of_pos (two_zpow_pos e), ← abs_mul, abs_of_pos (two_zpow_pos e), sub_mul,
    div_mul_cancel₀ _ (two_zpow_pos e).ne']

/-- **Rounding changes a quotient by one part in `2 ^ 53` at most.** -/
theorem near_round (negative : Bool) (hden : 0 < den) (h : Regular (num / den)) :
    (round negative num den).Near negative (num / den) := by
  rcases Nat.eq_zero_or_pos num with rfl | hnum
  · rw [round, if_pos (.inl rfl), Nat.cast_zero, zero_div]
    exact HasMagnitude.near le_rfl ⟨0, -1074, rfl, by rw [Nat.cast_zero, zero_mul]⟩
  · obtain ⟨hunit, hfinite⟩ := unit_of_regular hnum hden h
    obtain ⟨m, e, hround, -, hvalue, -⟩ := exists_round_eq negative hnum hden hfinite
    refine ⟨_, ⟨m, e, hround, hvalue⟩, ?_⟩
    rw [abs_mul_two_zpow_sub]
    calc |(roundAt num den (unit num den) : Rat) - num / den / 2 ^ unit num den| *
          2 ^ unit num den
        ≤ 1 / 2 * 2 ^ unit num den :=
          mul_le_mul_of_nonneg_right (roundAt_near num hden _) (two_zpow_pos _).le
      _ = 2 ^ floorLog2 num den * 2 ^ (-53 : Int) := by
          rw [show floorLog2 num den = unit num den + 52 by omega, two_zpow_add]
          norm_num
          ring
      _ ≤ num / den * 2 ^ (-53 : Int) :=
          mul_le_mul_of_nonneg_right (floorLog2_bounds hnum hden).1 (two_zpow_pos _).le

/-! ## The nearest number -/

/-- For `r` the number `a` with significand `m` is taken rather than `b`: it is not farther away, and
if it is not nearer either, then `m` is even. -/
def Preferred (r : Rat) (m : Nat) (a b : Rat) : Prop :=
  |a - r| ≤ |b - r| ∧ (b ≠ a → |a - r| = |b - r| → m % 2 = 0)

theorem Preferred.scale {r a b : Rat} {m : Nat} (e : Int) (h : Preferred (r / 2 ^ e) m a b) :
    Preferred r m (a * 2 ^ e) (b * 2 ^ e) := by
  have hpos := two_zpow_pos e
  unfold Preferred
  rw [abs_mul_two_zpow_sub, abs_mul_two_zpow_sub]
  refine ⟨mul_le_mul_of_nonneg_right h.1 hpos.le, fun hne heq => h.2 ?_ ?_⟩
  · rintro rfl
    exact hne rfl
  · exact mul_right_cancel₀ hpos.ne' heq

/-- The finite number with this sign whose magnitude is nearest, of all with a significand of 53 bits.
Of two at one distance it is the one with an even significand. -/
def Nearest (x : Binary64) (negative : Bool) (r : Rat) : Prop :=
  ∃ (m : Nat) (e : Int), x = .finite negative m e ∧ m < 2 * leastNormal ∧
    (-1074 ≤ e ∧ e ≤ 971) ∧ ∀ (n : Nat) (d : Int), n < 2 * leastNormal →
      Preferred r m (m * 2 ^ e) (n * 2 ^ d)

theorem preferred_roundAt (num : Nat) (hden : 0 < den) (e : Int) (k : Nat) :
    Preferred (num / den / 2 ^ e) (roundAt num den e) (roundAt num den e) k := by
  have hnear := roundAt_near num hden e
  by_cases hk : k = roundAt num den e
  · rw [hk]
    exact ⟨le_rfl, fun hne => absurd rfl hne⟩
  · have hapart : 1 ≤ |(k : Rat) - roundAt num den e| :=
      not_lt.1 fun h => hk (eq_of_abs_sub_lt_one h)
    have hsum := abs_sub_le (k : Rat) (num / den / 2 ^ e) (roundAt num den e)
    rw [abs_sub_comm ((num : Rat) / den / 2 ^ e)] at hsum
    exact ⟨by linarith, fun _ heq => roundAt_even hden (by linarith)⟩

theorem div_unit_bounds (hnum : 0 < num) (hden : 0 < den) (h : Regular (num / den)) :
    (leastNormal : Rat) ≤ num / den / 2 ^ unit num den ∧
      (num : Rat) / den / 2 ^ unit num den < 2 * leastNormal := by
  obtain ⟨hunit, -⟩ := unit_of_regular hnum hden h
  obtain ⟨hfloor, hceil⟩ := floorLog2_bounds hnum hden
  have hleast : (leastNormal : Rat) = 2 ^ (52 : Int) := by
    unfold leastNormal
    norm_num
  constructor
  · rw [le_div_iff₀ (two_zpow_pos _), hleast, ← two_zpow_add,
      show 52 + unit num den = floorLog2 num den by omega]
    exact hfloor
  · rw [div_lt_iff₀ (two_zpow_pos _), hleast, ← zpow_one_add₀ two_ne_zero, ← two_zpow_add,
      show 1 + 52 + unit num den = floorLog2 num den + 1 by omega]
    exact hceil

/-- **The multiple of the unit that is taken is the nearest of all numbers that there are.** -/
theorem preferred_round (hnum : 0 < num) (hden : 0 < den) (h : Regular (num / den)) {n : Nat}
    (d : Int) (hn : n < 2 * leastNormal) :
    Preferred (num / den) (roundAt num den (unit num den))
      (roundAt num den (unit num den) * 2 ^ unit num den) (n * 2 ^ d) := by
  have hclosest := preferred_roundAt num hden (unit num den)
  rcases le_or_gt (unit num den) d with hd | hd
  · -- a multiple of the unit
    have hmultiple : (n : Rat) * 2 ^ d =
        (n <<< (d - unit num den).toNat : Nat) * 2 ^ unit num den := by
      rw [cast_shiftLeft, Int.toNat_of_nonneg (by omega), mul_assoc, ← two_zpow_add,
        Int.sub_add_cancel]
    rw [hmultiple]
    exact (hclosest _).scale _
  · -- below all numbers with this unit, the least of which is not nearer
    obtain ⟨hle, -⟩ := div_unit_bounds hnum hden h
    rw [le_div_iff₀ (two_zpow_pos _)] at hle
    have hbelow : (n : Rat) * 2 ^ d < leastNormal * 2 ^ unit num den := by
      calc (n : Rat) * 2 ^ d < (2 * leastNormal : Nat) * 2 ^ d :=
            mul_lt_mul_of_pos_right (by exact_mod_cast hn) (two_zpow_pos d)
        _ = leastNormal * 2 ^ (d + 1) := by
            rw [two_zpow_add, zpow_one]
            push_cast
            ring
        _ ≤ leastNormal * 2 ^ unit num den :=
            mul_le_mul_of_nonneg_left (zpow_le_zpow_right₀ one_le_two (by omega)) (Nat.cast_nonneg _)
    have hnot := ((hclosest leastNormal).scale _).1
    rw [abs_of_nonpos (show (leastNormal : Rat) * 2 ^ unit num den - num / den ≤ 0 by linarith)]
      at hnot
    have hfar : |(n : Rat) * 2 ^ d - num / den| = num / den - n * 2 ^ d := by
      rw [abs_of_nonpos (by linarith), neg_sub]
    exact ⟨by linarith, fun _ heq => by linarith⟩

/-- **Rounding takes the nearest number, and the even one of two.** -/
theorem nearest_round (negative : Bool) (hden : 0 < den) (h : Regular (num / den)) :
    (round negative num den).Nearest negative (num / den) := by
  rcases Nat.eq_zero_or_pos num with rfl | hnum
  · rw [round, if_pos (.inl rfl), Nat.cast_zero, zero_div]
    refine ⟨0, -1074, rfl, by decide, by decide, fun n d _ => ?_⟩
    rw [Nat.cast_zero, zero_mul]
    refine ⟨?_, fun _ _ => rfl⟩
    rw [sub_zero, abs_zero]
    exact abs_nonneg _
  · obtain ⟨-, hfinite⟩ := unit_of_regular hnum hden h
    obtain ⟨-, hlt⟩ := div_unit_bounds hnum hden h
    obtain ⟨m, e, hround, hrange, hvalue, hsignificand⟩ := exists_round_eq negative hnum hden hfinite
    refine ⟨m, e, hround, ?_, hrange, fun n d hn => ?_⟩
    · have hle : roundAt num den (unit num den) < 2 * leastNormal + 1 := by
        have := (abs_le.1 (roundAt_near num hden (unit num den))).2
        rw [← @Nat.cast_lt Rat]
        push_cast
        linarith
      have hpos : 0 < leastNormal := by decide
      omega
    · obtain ⟨hnear, heven⟩ := preferred_round hnum hden h d hn
      rw [← hvalue] at hnear heven
      refine ⟨hnear, fun hne heq => ?_⟩
      rcases hsignificand with ⟨-, rfl⟩ | ⟨-, rfl⟩
      · rfl
      · exact heven hne heq

/-- The number that a magnitude is rounded to. -/
structure IsRounded (x : Binary64) (negative : Bool) (r : Rat) : Prop where
  near : x.Near negative r
  nearest : x.Nearest negative r

theorem isRounded_round (negative : Bool) (hden : 0 < den) (h : Regular (num / den)) :
    (round negative num den).IsRounded negative (num / den) :=
  ⟨near_round negative hden h, nearest_round negative hden h⟩

/-! ## Whole numbers -/

theorem hasMagnitude_round_one (negative : Bool) {n : Nat} (hn : n < 2 ^ (53 : Nat)) :
    (round negative n 1).HasMagnitude negative n := by
  rcases Nat.eq_zero_or_pos n with rfl | hpos
  · exact ⟨0, -1074, rfl, by rw [Nat.cast_zero, zero_mul]⟩
  · have hfloor := (floorLog2_bounds hpos Nat.one_pos).1
    rw [Nat.cast_one, div_one] at hfloor
    have hlt : (n : Rat) < 2 ^ (53 : Int) := by
      have : (n : Rat) < (2 ^ (53 : Nat) : Nat) := by exact_mod_cast hn
      exact this.trans_le (by norm_num)
    have hlog : floorLog2 n 1 < 53 :=
      (zpow_lt_zpow_iff_right₀ one_lt_two).1 (hfloor.trans_lt hlt)
    have hunit : unit n 1 ≤ 0 := by
      unfold unit
      omega
    -- as a multiple of a unit that is one over a whole number
    have hmultiple : (n : Rat) / (1 : Nat) = (n <<< (-unit n 1).toNat : Nat) * 2 ^ unit n 1 := by
      rw [cast_shiftLeft, Int.toNat_of_nonneg (by omega), mul_assoc, ← two_zpow_add,
        Int.add_left_neg, zpow_zero, Nat.cast_one, div_one, mul_one]
    obtain ⟨m, e, hround, -, hvalue, -⟩ := exists_round_eq negative hpos Nat.one_pos (by omega)
    rw [roundAt_eq Nat.one_pos hmultiple, ← hmultiple, Nat.cast_one, div_one] at hvalue
    exact ⟨m, e, hround, hvalue⟩

theorem hasMagnitude_ofNat {n : Nat} (hn : n < 2 ^ (53 : Nat)) :
    (ofNat n).HasMagnitude false n :=
  hasMagnitude_round_one false hn

/-! ## Operations -/

section Operations

variable {x y : Binary64} {s t : Bool} {a b : Rat}

theorem exists_div_eq_round (hx : x.HasMagnitude s a) (hy : y.HasMagnitude t b) (hb : 0 < b) :
    ∃ num den : Nat, 0 < den ∧ (num : Rat) / den = a / b ∧
      x.div y = round (s != t) num den := by
  obtain ⟨m, p, rfl, rfl⟩ := hx
  obtain ⟨n, q, rfl, rfl⟩ := hy
  have hn : 0 < n := by
    rcases Nat.eq_zero_or_pos n with rfl | hn
    · rw [Nat.cast_zero, zero_mul] at hb
      exact absurd hb (lt_irrefl _)
    · exact hn
  have hquotient : (m : Rat) * 2 ^ p / (n * 2 ^ q) = m / n * 2 ^ (p - q) := by
    rw [zpow_sub₀ two_ne_zero, div_mul_div_comm]
  rw [hquotient, div, if_neg hn.ne']
  split
  · next hle =>
    refine ⟨_, _, hn, ?_, rfl⟩
    rw [cast_shiftLeft, Int.toNat_of_nonneg (by omega), mul_div_right_comm]
  · refine ⟨_, _, ?_, ?_, rfl⟩
    · rw [Nat.shiftLeft_eq]
      exact Nat.mul_pos hn (Nat.two_pow_pos _)
    · rw [div_shiftLeft _ _ (by omega), ← Int.neg_sub, zpow_neg, div_inv_eq_mul]

theorem exists_mul_eq_round (hx : x.HasMagnitude s a) (hy : y.HasMagnitude t b) :
    ∃ num den : Nat, 0 < den ∧ (num : Rat) / den = a * b ∧
      x.mul y = round (s != t) num den := by
  obtain ⟨m, p, rfl, rfl⟩ := hx
  obtain ⟨n, q, rfl, rfl⟩ := hy
  have hproduct : (m : Rat) * 2 ^ p * (n * 2 ^ q) = (m * n : Nat) * 2 ^ (p + q) := by
    rw [two_zpow_add]
    push_cast
    ring
  rw [hproduct, mul, roundScaled]
  split
  · next hle =>
    refine ⟨_, _, Nat.one_pos, ?_, rfl⟩
    rw [cast_shiftLeft, Int.toNat_of_nonneg hle, Nat.cast_one, div_one]
  · refine ⟨_, _, ?_, ?_, rfl⟩
    · rw [Nat.one_shiftLeft]
      exact Nat.two_pow_pos _
    · rw [div_shiftLeft _ _ (by omega), zpow_neg, Nat.cast_one, div_one, div_inv_eq_mul]

theorem isRounded_div (hx : x.HasMagnitude s a) (hy : y.HasMagnitude t b) (hb : 0 < b)
    (h : Regular (a / b)) : (x.div y).IsRounded (s != t) (a / b) := by
  obtain ⟨num, den, hden, hquotient, hround⟩ := exists_div_eq_round hx hy hb
  rw [hround, ← hquotient]
  exact isRounded_round _ hden (hquotient ▸ h)

theorem isRounded_mul (hx : x.HasMagnitude s a) (hy : y.HasMagnitude t b)
    (h : Regular (a * b)) : (x.mul y).IsRounded (s != t) (a * b) := by
  obtain ⟨num, den, hden, hproduct, hround⟩ := exists_mul_eq_round hx hy
  rw [hround, ← hproduct]
  exact isRounded_round _ hden (hproduct ▸ h)

theorem toIntRounded?_eq {n : Nat} (hx : x.HasMagnitude s a) (h : |a - n| < 1 / 2) :
    x.toIntRounded? = some (if s then -(n : Int) else n) := by
  obtain ⟨m, p, rfl, rfl⟩ := hx
  have hmagnitude : (if 0 ≤ p then m <<< p.toNat else roundQuotientUp m (1 <<< (-p).toNat)) = n := by
    split
    · next hp =>
      apply eq_of_abs_sub_lt_one
      rw [cast_shiftLeft, Int.toNat_of_nonneg hp]
      exact h.trans (by norm_num)
    · apply roundQuotientUp_eq
      · rw [Nat.one_shiftLeft]
        exact Nat.two_pow_pos _
      · rwa [div_shiftLeft _ _ (by omega), zpow_neg, Nat.cast_one, div_one, div_inv_eq_mul,
          abs_sub_comm]
  simp only [toIntRounded?, hmagnitude]

end Operations

end Binary64

end Downlink
