import Downlink.Replay
import Downlink.Proofs.RoundingOrder

/-!
# The delays of a replay

A recorded time is converted to seconds, divided by the speed and converted back, and each of these
steps rounds. No step brings two times out of order, and at the speeds that a replay can have none
of them leaves the range of the regular numbers. So the delays are in the order of the times
(`delay_mono`).
-/

namespace Downlink

namespace Binary64

variable {x y : Binary64} {a b r : Rat} {low high : Int}

/-! ## Ranges -/

/-- Zero, and the magnitudes between two powers of two. -/
def Within (low high : Int) (r : Rat) : Prop :=
  r = 0 ∨ (2 : Rat) ^ low ≤ r ∧ r ≤ 2 ^ high

theorem Within.regular (h : Within low high r) (hlow : -1022 ≤ low) (hhigh : high < 1023) :
    Regular r := by
  rcases h with rfl | ⟨hle, hge⟩
  · exact .inl rfl
  · exact .inr ⟨(zpow_le_zpow_right₀ one_le_two hlow).trans hle,
      hge.trans_lt (zpow_lt_zpow_right₀ one_lt_two hhigh)⟩

theorem Rounds.exists_within (h : x.Rounds r) (hr : Within low high r) (hlow : -1022 ≤ low)
    (hhigh : high < 1023) : ∃ a, x.HasMagnitude false a ∧ Within low high a := by
  have hnearest := h.nearest (hr.regular hlow hhigh)
  obtain ⟨m, e, -, hx⟩ := hnearest.exists_hasMagnitude
  have hzero : 0 < 2 * leastNormal := by decide
  have hone : 1 < 2 * leastNormal := by decide
  refine ⟨_, hx, ?_⟩
  rcases hr with rfl | ⟨hle, hge⟩
  · have hle := hnearest.le_of_le (d := 0) hx hzero (by norm_num)
    have hge := hnearest.ge_of_ge (d := 0) hx hzero (by norm_num)
    rw [Nat.cast_zero, zero_mul] at hle hge
    exact .inl (le_antisymm hge hle)
  · have hle := hnearest.le_of_le (d := low) hx hone (by rwa [Nat.cast_one, one_mul])
    have hge := hnearest.ge_of_ge (d := high) hx hone (by rwa [Nat.cast_one, one_mul])
    rw [Nat.cast_one, one_mul] at hle hge
    exact .inr ⟨hle, hge⟩

theorem lt_iff (hx : x.HasMagnitude false a) (hy : y.HasMagnitude false b) :
    x.lt y = true ↔ a < b := by
  obtain ⟨m, p, rfl, rfl⟩ := hx
  obtain ⟨n, q, rfl, rfl⟩ := hy
  rw [scaled_eq m (min_le_left p q), scaled_eq n (min_le_right p q),
    mul_lt_mul_iff_left₀ (two_zpow_pos _), Nat.cast_lt]
  show decide (((m <<< (p - min p q).toNat : Nat) : Int) < (n <<< (q - min p q).toNat : Nat)) =
    true ↔ _
  rw [decide_eq_true_iff, Int.ofNat_lt]

theorem lt_of_negative (hx : x.HasMagnitude true a) (hy : y.HasMagnitude false b) (hb : 0 < b) :
    x.lt y = true := by
  obtain ⟨m, p, rfl, rfl⟩ := hx
  obtain ⟨n, q, rfl, rfl⟩ := hy
  rw [scaled_eq n (min_le_right p q), mul_pos_iff_of_pos_right (two_zpow_pos _), Nat.cast_pos] at hb
  show decide (-((m <<< (p - min p q).toNat : Nat) : Int) < (n <<< (q - min p q).toNat : Nat)) =
    true
  rw [decide_eq_true_iff]
  generalize m <<< (p - min p q).toNat = k
  generalize n <<< (q - min p q).toNat = j at hb ⊢
  omega

end Binary64

namespace Replay

open Binary64

variable {x y : Binary64} {a b : Rat}

/-! ## Speeds -/

theorem hasMagnitude_one : (ofNat 1).HasMagnitude false 1 := by
  have h := hasMagnitude_round_one false (n := 1) (by norm_num)
  rwa [Nat.cast_one] at h

theorem hasMagnitude_fastest : fastest.HasMagnitude false 100 := by
  have h := hasMagnitude_round_one false (n := 100) (by norm_num)
  rwa [Nat.cast_ofNat] at h

theorem hasMagnitude_slowest :
    slowest.HasMagnitude false (7205759403792794 * 2 ^ (-56 : Int)) :=
  ⟨7205759403792794, -56, by decide, by norm_num⟩

/-- A speed that is a magnitude between a sixteenth and `2 ^ 7`. -/
def Moderate (speed : Binary64) : Prop :=
  ∃ b, speed.HasMagnitude false b ∧ (2 : Rat) ^ (-4 : Int) ≤ b ∧ b ≤ 2 ^ (7 : Int)

/-- **Every speed that a replay can have is moderate.** -/
theorem moderate_clamp (speed : Binary64) : Moderate (clamp speed) := by
  unfold clamp
  split
  · exact ⟨1, hasMagnitude_one, by norm_num, by norm_num⟩
  split
  · exact ⟨_, hasMagnitude_slowest, by norm_num, by norm_num⟩
  split
  · exact ⟨100, hasMagnitude_fastest, by norm_num, by norm_num⟩
  next hnan hslow hfast =>
    match speed with
    | .nan => exact absurd rfl hnan
    | .infinity true => exact absurd rfl hslow
    | .infinity false => exact absurd rfl hfast
    | .finite true m e =>
      exact absurd (lt_of_negative ⟨m, e, rfl, rfl⟩ hasMagnitude_slowest (by norm_num)) hslow
    | .finite false m e =>
      have hx : HasMagnitude (.finite false m e) false (m * 2 ^ e) := ⟨m, e, rfl, rfl⟩
      have hle := not_lt.1 (mt (lt_iff hx hasMagnitude_slowest).2 hslow)
      have hge := not_lt.1 (mt (lt_iff hasMagnitude_fastest hx).2 hfast)
      exact ⟨_, hx, le_trans (by norm_num) hle, hge.trans (by norm_num)⟩

/-! ## Seconds -/

variable {n later : Nat}

/-- Nanoseconds that are no whole second, in seconds. -/
def fraction (n : Nat) : Binary64 :=
  (ofNat (n % 1000000000)).div (ofNat 1000000000)

theorem within_fraction (n : Nat) :
    Within (-30) 0 ((n % 1000000000 : Nat) / (1000000000 : Nat)) := by
  have hlt := Nat.mod_lt n (show 0 < 1000000000 by decide)
  rcases Nat.eq_zero_or_pos (n % 1000000000) with hzero | hpos
  · exact .inl (by rw [hzero, Nat.cast_zero, zero_div])
  · have hone : (1 : Rat) ≤ (n % 1000000000 : Nat) := by exact_mod_cast hpos
    have hle : ((n % 1000000000 : Nat) : Rat) ≤ (1000000000 : Nat) := by exact_mod_cast hlt.le
    have hbillion : (0 : Rat) < (1000000000 : Nat) := by norm_num
    refine .inr ⟨?_, ?_⟩
    · rw [le_div_iff₀ hbillion]
      exact le_trans (by norm_num) hone
    · rw [div_le_iff₀ hbillion]
      exact hle.trans (by norm_num)

theorem rounds_fraction (n : Nat) :
    (fraction n).Rounds ((n % 1000000000 : Nat) / (1000000000 : Nat)) := by
  have hlt := Nat.mod_lt n (show 0 < 1000000000 by decide)
  have hn : n % 1000000000 < 2 ^ (53 : Nat) := hlt.trans (by norm_num)
  exact rounds_div (hasMagnitude_ofNat hn) (hasMagnitude_ofNat (by norm_num)) (by norm_num)

theorem exists_fraction (n : Nat) :
    ∃ a, (fraction n).HasMagnitude false a ∧ 0 ≤ a ∧ Within (-30) 0 a ∧ a ≤ 1 := by
  obtain ⟨a, ha, hwithin⟩ :=
    (rounds_fraction n).exists_within (within_fraction n) (by norm_num) (by norm_num)
  refine ⟨a, ha, ?_, hwithin, ?_⟩
  · rcases hwithin with rfl | ⟨hle, -⟩
    · exact le_rfl
    · exact (two_zpow_pos _).le.trans hle
  · rcases hwithin with rfl | ⟨-, hge⟩
    · exact zero_le_one
    · exact hge

theorem rounds_seconds (hn : n < 2 ^ (64 : Nat)) (ha : (fraction n).HasMagnitude false a) :
    (seconds n).Rounds ((n / 1000000000 : Nat) + a) :=
  rounds_add (hasMagnitude_ofNat (by omega)) ha

theorem within_seconds (hn : n < 2 ^ (64 : Nat)) (ha : (fraction n).HasMagnitude false a) :
    Within (-30) 35 ((n / 1000000000 : Nat) + a) := by
  obtain ⟨a', ha', hzero, hwithin, hone⟩ := exists_fraction n
  obtain rfl := ha.unique ha'
  have hfew : ((n / 1000000000 : Nat) : Rat) ≤ (18446744073 : Nat) := by
    have : n / 1000000000 ≤ 18446744073 := by omega
    exact_mod_cast this
  have hhigh : ((n / 1000000000 : Nat) : Rat) + a ≤ 2 ^ (35 : Int) := by
    refine (add_le_add hfew hone).trans ?_
    norm_num
  rcases Nat.eq_zero_or_pos (n / 1000000000) with hnone | hpos
  · rw [hnone, Nat.cast_zero, zero_add] at hhigh ⊢
    exact hwithin.imp id fun h => ⟨h.1, hhigh⟩
  · have hsecond : (1 : Rat) ≤ (n / 1000000000 : Nat) := by exact_mod_cast hpos
    refine .inr ⟨?_, hhigh⟩
    exact le_trans (by norm_num) (add_le_add hsecond hzero)

theorem seconds_mono (hlater : later < 2 ^ (64 : Nat)) (h : n ≤ later)
    (hx : (seconds n).HasMagnitude false a) (hy : (seconds later).HasMagnitude false b) :
    a ≤ b := by
  have hn : n < 2 ^ (64 : Nat) := h.trans_lt hlater
  obtain ⟨c, hc, -, -, hone⟩ := exists_fraction n
  obtain ⟨d, hd, hzero, -, -⟩ := exists_fraction later
  have hregular := (within_seconds hn hc).regular (by norm_num) (by norm_num)
  have hregular' := (within_seconds hlater hd).regular (by norm_num) (by norm_num)
  refine (rounds_seconds hn hc).mono (rounds_seconds hlater hd) hregular hregular' hx hy ?_
  rcases (Nat.div_le_div_right (c := 1000000000) h).lt_or_eq with hlt | heq
  · have hsecond : ((n / 1000000000 : Nat) : Rat) + 1 ≤ (later / 1000000000 : Nat) := by
      exact_mod_cast hlt
    linarith
  · -- in one second, so the rests are in order
    have hrest : n % 1000000000 ≤ later % 1000000000 := by omega
    have hcd : c ≤ d := by
      refine (rounds_fraction n).mono (rounds_fraction later)
        ((within_fraction n).regular (by norm_num) (by norm_num))
        ((within_fraction later).regular (by norm_num) (by norm_num)) hc hd ?_
      exact div_le_div_of_nonneg_right (by exact_mod_cast hrest) (by norm_num)
    rw [heq]
    exact add_le_add le_rfl hcd

/-! ## Delays -/

theorem exists_nanosecondsOf_eq (hx : x.HasMagnitude false a) :
    ∃ num den : Nat, 0 < den ∧ (num : Rat) / den = a * (1000000000 : Nat) ∧
      nanosecondsOf x = roundQuotient num den := by
  obtain ⟨m, e, rfl, rfl⟩ := hx
  simp only [nanosecondsOf]
  split
  · next he =>
    refine ⟨(m <<< e.toNat) * 1000000000, 1, Nat.one_pos, ?_, ?_⟩
    · rw [Nat.cast_mul, cast_shiftLeft, Int.toNat_of_nonneg he, Nat.cast_one, div_one]
    · rw [roundQuotient_eq_of_dvd Nat.one_pos (one_dvd _), Nat.div_one]
  · refine ⟨m * 1000000000, 1 <<< (-e).toNat, ?_, ?_, rfl⟩
    · rw [Nat.one_shiftLeft]
      exact Nat.two_pow_pos _
    · rw [div_shiftLeft _ _ (by omega), zpow_neg, Nat.cast_one, div_one, div_inv_eq_mul,
        Nat.cast_mul, mul_right_comm]

theorem nanosecondsOf_mono (hx : x.HasMagnitude false a) (hy : y.HasMagnitude false b)
    (h : a ≤ b) : nanosecondsOf x ≤ nanosecondsOf y := by
  obtain ⟨num, den, hden, hquotient, heq⟩ := exists_nanosecondsOf_eq hx
  obtain ⟨num', den', hden', hquotient', heq'⟩ := exists_nanosecondsOf_eq hy
  rw [heq, heq']
  apply roundQuotient_mono hden hden'
  rw [hquotient, hquotient']
  exact mul_le_mul_of_nonneg_right h (Nat.cast_nonneg _)

theorem within_quotient {speed : Rat} (ha : Within (-30) 35 a)
    (hlow : (2 : Rat) ^ (-4 : Int) ≤ speed) (hhigh : speed ≤ 2 ^ (7 : Int)) :
    Within (-37) 39 (a / speed) := by
  have hpos : 0 < speed := (two_zpow_pos _).trans_le hlow
  rcases ha with rfl | ⟨hle, hge⟩
  · exact .inl (zero_div _)
  · refine .inr ⟨?_, ?_⟩
    · rw [le_div_iff₀ hpos]
      calc (2 : Rat) ^ (-37 : Int) * speed
          ≤ 2 ^ (-37 : Int) * 2 ^ (7 : Int) := mul_le_mul_of_nonneg_left hhigh (two_zpow_pos _).le
        _ = 2 ^ (-30 : Int) := by norm_num
        _ ≤ a := hle
    · rw [div_le_iff₀ hpos]
      calc a ≤ 2 ^ (35 : Int) := hge
        _ = 2 ^ (39 : Int) * 2 ^ (-4 : Int) := by norm_num
        _ ≤ 2 ^ (39 : Int) * speed := mul_le_mul_of_nonneg_left hlow (two_zpow_pos _).le

/-- **The delays are in the order of the recorded times**, at every speed that a replay can have. -/
theorem delay_mono {speed : Binary64} (hspeed : Moderate speed) {time later : UInt64}
    (h : time ≤ later) : delay speed time ≤ delay speed later := by
  obtain ⟨s, hs, hlow, hhigh⟩ := hspeed
  have hpos : 0 < s := (two_zpow_pos _).trans_le hlow
  have hseconds : ∀ time : UInt64, ∃ a, (seconds time.toNat).HasMagnitude false a ∧
      Within (-30) 35 a := by
    intro time
    obtain ⟨c, hc, -⟩ := exists_fraction time.toNat
    exact (rounds_seconds time.toNat_lt hc).exists_within (within_seconds time.toNat_lt hc)
      (by norm_num) (by norm_num)
  obtain ⟨a, ha, hwithin⟩ := hseconds time
  obtain ⟨b, hb, hwithin'⟩ := hseconds later
  have hab : a ≤ b := seconds_mono later.toNat_lt (UInt64.le_iff_toNat_le.1 h) ha hb
  have hquotient := within_quotient hwithin hlow hhigh
  have hquotient' := within_quotient hwithin' hlow hhigh
  obtain ⟨c, hc, -⟩ := (rounds_div ha hs hpos).exists_within hquotient (by norm_num) (by norm_num)
  obtain ⟨d, hd, -⟩ := (rounds_div hb hs hpos).exists_within hquotient' (by norm_num) (by norm_num)
  refine nanosecondsOf_mono hc hd ?_
  exact (rounds_div ha hs hpos).mono (rounds_div hb hs hpos)
    (hquotient.regular (by norm_num) (by norm_num)) (hquotient'.regular (by norm_num) (by norm_num))
    hc hd (div_le_div_of_nonneg_right hab hpos.le)

end Replay

end Downlink
