import Downlink.Proofs.Rounding

/-!
# The order of rounded numbers

What a quotient is rounded to depends on its value alone, however it is written (`round_congr`). Of
two magnitudes the greater one is not rounded to the smaller number (`Rounds.mono`): if it were,
each number would be at least as near to its own magnitude as the other is, so both magnitudes would
lie on the wrong side of the middle. And no number lies between a magnitude and what it is rounded
to (`Nearest.le_of_le`, `Nearest.ge_of_ge`).
-/

namespace Downlink

variable {num den num' den' : Nat}

/-! ## Whole numbers -/

theorem roundQuotient_le_of_le (h : num ≤ num') (den : Nat) :
    roundQuotient num den ≤ roundQuotient num' den := by
  have hquotient : num / den ≤ num' / den := Nat.div_le_div_right h
  have hsplit := Nat.div_add_mod' num den
  have hsplit' := Nat.div_add_mod' num' den
  unfold roundQuotient
  dsimp only
  rcases Nat.lt_or_eq_of_le hquotient with hlt | heq
  · split <;> split <;> omega
  · -- The same quotient, so the remainders are in order.
    rw [heq] at hsplit ⊢
    split <;> split <;> omega

theorem roundQuotient_mul {k : Nat} (hk : 0 < k) (num den : Nat) :
    roundQuotient (k * num) (k * den) = roundQuotient num den := by
  have hlt : 2 * (k * (num % den)) < k * den ↔ 2 * (num % den) < den := by
    rw [Nat.mul_left_comm, Nat.mul_lt_mul_left hk]
  have heq : 2 * (k * (num % den)) = k * den ↔ 2 * (num % den) = den := by
    rw [Nat.mul_left_comm, Nat.mul_right_inj hk.ne']
  simp only [roundQuotient, Nat.mul_div_mul_left _ _ hk, Nat.mul_mod_mul_left, hlt, heq]

theorem roundQuotient_mono (hden : 0 < den) (hden' : 0 < den')
    (h : (num : Rat) / den ≤ num' / den') : roundQuotient num den ≤ roundQuotient num' den' := by
  have hcross : den' * num ≤ den * num' := by
    rw [div_le_div_iff₀ (by exact_mod_cast hden) (by exact_mod_cast hden')] at h
    have hnat : num * den' ≤ num' * den := by exact_mod_cast h
    rwa [Nat.mul_comm den', Nat.mul_comm den]
  calc roundQuotient num den
      = roundQuotient (den' * num) (den' * den) := (roundQuotient_mul hden' num den).symm
    _ ≤ roundQuotient (den * num') (den' * den) := roundQuotient_le_of_le hcross _
    _ = roundQuotient num' den' := by rw [Nat.mul_comm den' den, roundQuotient_mul hden]

theorem roundQuotient_congr (hden : 0 < den) (hden' : 0 < den')
    (h : (num : Rat) / den = num' / den') : roundQuotient num den = roundQuotient num' den' :=
  Nat.le_antisymm (roundQuotient_mono hden hden' h.le) (roundQuotient_mono hden' hden h.ge)

namespace Binary64

/-! ## Numbers -/

theorem floorLog2_congr (hnum : 0 < num) (hden : 0 < den) (hnum' : 0 < num') (hden' : 0 < den')
    (h : (num : Rat) / den = num' / den') : floorLog2 num den = floorLog2 num' den' := by
  obtain ⟨hle, hlt⟩ := floorLog2_bounds hnum hden
  obtain ⟨hle', hlt'⟩ := floorLog2_bounds hnum' hden'
  rw [h] at hle hlt
  have hone := (zpow_lt_zpow_iff_right₀ one_lt_two).1 (hle.trans_lt hlt')
  have hother := (zpow_lt_zpow_iff_right₀ one_lt_two).1 (hle'.trans_lt hlt)
  omega

theorem round_congr (negative : Bool) (hden : 0 < den) (hden' : 0 < den')
    (h : (num : Rat) / den = num' / den') : round negative num den = round negative num' den' := by
  have hzero : num = 0 ↔ num' = 0 := by
    have hne : (den : Rat) ≠ 0 := by exact_mod_cast hden.ne'
    have hne' : (den' : Rat) ≠ 0 := by exact_mod_cast hden'.ne'
    have hcross : num * den' = num' * den := by exact_mod_cast (div_eq_div_iff hne hne').1 h
    constructor
    · rintro rfl
      rw [Nat.zero_mul, eq_comm, Nat.mul_eq_zero] at hcross
      exact hcross.resolve_right hden.ne'
    · rintro rfl
      rw [Nat.zero_mul, Nat.mul_eq_zero] at hcross
      exact hcross.resolve_right hden'.ne'
  rcases Nat.eq_zero_or_pos num with hnum | hnum
  · rw [round, round, if_pos (.inl hnum), if_pos (.inl (hzero.1 hnum))]
  · have hnum' : 0 < num' := Nat.pos_of_ne_zero (mt hzero.2 hnum.ne')
    have hunit : unit num den = unit num' den' := by
      rw [unit, unit, floorLog2_congr hnum hden hnum' hden' h]
    have hat : roundAt num den (unit num' den') = roundAt num' den' (unit num' den') := by
      obtain ⟨_, _, hpos, hquotient, heq⟩ := exists_roundAt_eq num hden (unit num' den')
      obtain ⟨_, _, hpos', hquotient', heq'⟩ := exists_roundAt_eq num' hden' (unit num' den')
      rw [heq, heq', roundQuotient_congr hpos hpos' (by rw [hquotient, hquotient', h])]
    rw [round_eq negative hnum hden, round_eq negative hnum' hden', hunit, hat]

/-! ## Bounds -/

section Bounds

variable {x y : Binary64} {negative : Bool} {r r' a b : Rat}

theorem HasMagnitude.unique (h : x.HasMagnitude negative a) (h' : x.HasMagnitude negative b) :
    a = b := by
  obtain ⟨m, e, rfl, rfl⟩ := h
  obtain ⟨n, d, heq, rfl⟩ := h'
  cases heq
  rfl

theorem Nearest.abs_sub_le (h : x.Nearest negative r) (hx : x.HasMagnitude negative a) {n : Nat}
    (hn : n < 2 * leastNormal) (d : Int) : |a - r| ≤ |n * 2 ^ d - r| := by
  obtain ⟨m, e, rfl, -, -, hpreferred⟩ := h
  rw [hx.unique ⟨m, e, rfl, rfl⟩]
  exact (hpreferred n d hn).1

theorem Nearest.ge_of_ge (h : x.Nearest negative r) (hx : x.HasMagnitude negative a) {n : Nat}
    (hn : n < 2 * leastNormal) {d : Int} (hle : r ≤ n * 2 ^ d) : a ≤ n * 2 ^ d := by
  have hnear := h.abs_sub_le hx hn d
  rw [abs_of_nonneg (sub_nonneg.2 hle)] at hnear
  have := le_of_abs_le hnear
  linarith

theorem Nearest.le_of_le (h : x.Nearest negative r) (hx : x.HasMagnitude negative a) {n : Nat}
    (hn : n < 2 * leastNormal) {d : Int} (hle : n * 2 ^ d ≤ r) : n * 2 ^ d ≤ a := by
  have hnear := h.abs_sub_le hx hn d
  rw [abs_sub_comm, abs_sub_comm _ r, abs_of_nonneg (sub_nonneg.2 hle)] at hnear
  have := le_of_abs_le hnear
  linarith

theorem add_le_two_mul_of_abs_le (hlt : b < a) (h : |a - r| ≤ |b - r|) : a + b ≤ 2 * r := by
  by_contra hnot
  have hcloser : |b - r| < a - r := abs_lt.2 ⟨by linarith, by linarith⟩
  exact absurd h (not_le.2 (hcloser.trans_le (le_abs_self _)))

theorem two_mul_le_add_of_abs_le (hlt : b < a) (h : |b - r| ≤ |a - r|) : 2 * r ≤ a + b := by
  by_contra hnot
  have hcloser : |a - r| < r - b := abs_lt.2 ⟨by linarith, by linarith⟩
  rw [abs_sub_comm b] at h
  exact absurd h (not_le.2 (hcloser.trans_le (le_abs_self _)))

/-! ## Order -/

/-- The number that a magnitude is rounded to, whatever quotient it is. -/
def Rounds (x : Binary64) (r : Rat) : Prop :=
  ∃ num den : Nat, 0 < den ∧ (num : Rat) / den = r ∧ x = round false num den

theorem Rounds.unique (h : x.Rounds r) (h' : y.Rounds r) : x = y := by
  obtain ⟨_, _, hden, hquotient, rfl⟩ := h
  obtain ⟨_, _, hden', hquotient', rfl⟩ := h'
  exact round_congr false hden hden' (hquotient.trans hquotient'.symm)

theorem Rounds.nearest (h : x.Rounds r) (hregular : Regular r) : x.Nearest false r := by
  obtain ⟨_, _, hden, rfl, rfl⟩ := h
  exact nearest_round false hden hregular

theorem Nearest.exists_hasMagnitude (h : x.Nearest negative r) :
    ∃ (m : Nat) (e : Int), m < 2 * leastNormal ∧ x.HasMagnitude negative (m * 2 ^ e) := by
  obtain ⟨m, e, rfl, hm, -, -⟩ := h
  exact ⟨m, e, hm, m, e, rfl, rfl⟩

theorem Rounds.mono (h : x.Rounds r) (h' : y.Rounds r') (hregular : Regular r)
    (hregular' : Regular r') (hx : x.HasMagnitude false a) (hy : y.HasMagnitude false b)
    (hle : r ≤ r') : a ≤ b := by
  rcases hle.lt_or_eq with hlt | rfl
  · by_contra hnot
    have hba : b < a := not_le.1 hnot
    obtain ⟨m, e, hm, hxm⟩ := (h.nearest hregular).exists_hasMagnitude
    obtain ⟨n, d, hn, hyn⟩ := (h'.nearest hregular').exists_hasMagnitude
    have hnear := (h.nearest hregular).abs_sub_le hx hn d
    have hnear' := (h'.nearest hregular').abs_sub_le hy hm e
    rw [← hy.unique hyn] at hnear
    rw [← hx.unique hxm] at hnear'
    have := add_le_two_mul_of_abs_le hba hnear
    have := two_mul_le_add_of_abs_le hba hnear'
    linarith
  · rw [h.unique h'] at hx
    exact (hx.unique hy).le

/-! ## Operations on magnitudes -/

theorem rounds_div (hx : x.HasMagnitude false a) (hy : y.HasMagnitude false b) (hb : 0 < b) :
    (x.div y).Rounds (a / b) := by
  obtain ⟨num, den, hden, hquotient, hround⟩ := exists_div_eq_round hx hy hb
  exact ⟨num, den, hden, hquotient, hround⟩

theorem rounds_roundScaled (m : Nat) (e : Int) : (roundScaled false m e).Rounds (m * 2 ^ e) := by
  rw [roundScaled]
  split
  · next he =>
    refine ⟨_, _, Nat.one_pos, ?_, rfl⟩
    rw [cast_shiftLeft, Int.toNat_of_nonneg he, Nat.cast_one, div_one]
  · refine ⟨_, _, ?_, ?_, rfl⟩
    · rw [Nat.one_shiftLeft]
      exact Nat.two_pow_pos _
    · rw [div_shiftLeft _ _ (by omega), zpow_neg, Nat.cast_one, div_one, div_inv_eq_mul]

theorem rounds_zero : (zero false).Rounds 0 :=
  ⟨0, 1, Nat.one_pos, by rw [Nat.cast_zero, zero_div], rfl⟩

theorem scaled_eq (n : Nat) {d e : Int} (h : d ≤ e) :
    (n : Rat) * 2 ^ e = (n <<< (e - d).toNat : Nat) * 2 ^ d := by
  rw [cast_shiftLeft, Int.toNat_of_nonneg (by omega), mul_assoc, ← two_zpow_add, Int.sub_add_cancel]

theorem rounds_add (hx : x.HasMagnitude false a) (hy : y.HasMagnitude false b) :
    (x.add y).Rounds (a + b) := by
  obtain ⟨m, p, rfl, rfl⟩ := hx
  obtain ⟨n, q, rfl, rfl⟩ := hy
  rw [scaled_eq m (min_le_left p q), scaled_eq n (min_le_right p q), ← add_mul, ← Nat.cast_add]
  generalize hsum : m <<< (p - min p q).toNat + n <<< (q - min p q).toNat = sum
  have hadd : significandAt false m p (min p q) + significandAt false n q (min p q) =
      (sum : Int) := by
    rw [← hsum]
    rfl
  rw [add]
  simp only [hadd]
  split
  · next hzero =>
    obtain rfl : sum = 0 := by exact_mod_cast hzero
    rw [Nat.cast_zero, zero_mul]
    exact rounds_zero
  · rw [Int.natAbs_natCast, decide_eq_false (by omega)]
    exact rounds_roundScaled sum _

end Bounds

end Binary64

end Downlink
