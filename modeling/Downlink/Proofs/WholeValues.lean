import Mathlib.Data.Rat.Cast.Order
import Downlink.Value

/-!
# Values that are integers

A value stands for its raw integer divided by its divisor. As an integer it is given just when the
quotient is whole and has room in 64 bits with a sign (`toInt?_eq_some_iff`). As a natural number it
goes the same way, except if it has no sign and no divisor (`toNat?_eq_some_iff`): then all 64 bits
may be used. So a quotient from `2 ^ 63` up to `2 ^ 64` is a natural number of 64 bits, but it is not
given as one (`natural_iff`).

Raw integers are divided in 128 bits, truncating. This makes no difference, since a quotient is only
taken if nothing is left over (`Checked.WordValue.map_toInt_toInt64?`,
`Checked.WordValue.map_toNat_toUInt64?`).
-/

namespace Downlink

namespace Value

variable {v : Value}

/-! ## What a value stands for -/

def divisor : Value → Nat
  | .scaled _ divisor _ => divisor
  | _ => 1

theorem divisor_pos (v : Value) : 0 < v.divisor := by
  cases v with
  | unsigned raw => exact Nat.one_pos
  | signed raw => exact Nat.one_pos
  | scaled raw divisor divisor_pos => exact divisor_pos

/-- The number that a value stands for. -/
def exact (v : Value) : Rat :=
  (v.raw : Rat) / (v.divisor : Rat)

theorem exact_eq_iff (v : Value) (n : Int) : v.exact = n ↔ v.raw = n * v.divisor := by
  have hdivisor : (v.divisor : Rat) ≠ 0 := by
    exact_mod_cast Nat.ne_of_gt v.divisor_pos
  rw [exact, div_eq_iff hdivisor]
  norm_cast

theorem exact_eq_iff_of_not_scaled (h : v.isScaled = false) (n : Int) :
    v.exact = n ↔ v.raw = n := by
  rw [exact_eq_iff]
  cases v with
  | unsigned raw => simp [divisor]
  | signed raw => simp [divisor]
  | scaled raw divisor divisor_pos => cases h

theorem exact_scaled_eq_iff {raw n : Int} {divisor : Nat} (h : 0 < divisor) :
    (Value.scaled raw divisor h).exact = n ↔ raw % divisor = 0 ∧ raw / divisor = n := by
  have hne : (divisor : Int) ≠ 0 := by omega
  rw [exact_eq_iff]
  show raw = n * divisor ↔ _
  constructor
  · rintro rfl
    exact ⟨Int.mul_emod_left _ _, Int.mul_ediv_cancel _ hne⟩
  · rintro ⟨hwhole, rfl⟩
    exact (Int.ediv_mul_cancel (Int.dvd_of_emod_eq_zero hwhole)).symm

/-! ## Values as integers -/

theorem inRange_eq_some_iff (m n : Int) :
    (if Int64.minValue.toInt ≤ m ∧ m ≤ Int64.maxValue.toInt then some m else none) = some n ↔
      m = n ∧ -2 ^ (63 : Nat) ≤ n ∧ n < 2 ^ (63 : Nat) := by
  have hleast : Int64.minValue.toInt = -2 ^ (63 : Nat) := Int64.toInt_minValue
  have hgreatest : Int64.maxValue.toInt = 2 ^ (63 : Nat) - 1 := Int64.toInt_maxValue
  rw [hleast, hgreatest]
  split
  · rw [Option.some.injEq]
    omega
  · exact iff_of_false (fun h => by cases h) (by omega)

/-- **A value is given as an integer just when it is one** with room in 64 bits with a sign. -/
theorem toInt?_eq_some_iff (v : Value) (n : Int) :
    v.toInt? = some n ↔ v.exact = n ∧ -2 ^ (63 : Nat) ≤ n ∧ n < 2 ^ (63 : Nat) := by
  cases v with
  | unsigned raw =>
    rw [exact_eq_iff_of_not_scaled rfl]
    exact inRange_eq_some_iff raw.toNat n
  | signed raw =>
    have hle := raw.le_toInt
    have hlt := raw.toInt_lt
    rw [exact_eq_iff_of_not_scaled rfl, toInt?, Value.raw, Option.some.injEq]
    omega
  | scaled raw divisor divisor_pos =>
    rw [exact_scaled_eq_iff, toInt?]
    by_cases hwhole : raw % divisor = 0
    · rw [if_pos hwhole, and_iff_right hwhole]
      exact inRange_eq_some_iff (raw / divisor) n
    · rw [if_neg hwhole]
      exact iff_of_false (fun h => by cases h) fun h => hwhole h.1.1

/-- A scaled value has 63 bits for a natural number, as it has for an integer; any other has all
64. -/
def naturalBits (v : Value) : Nat :=
  if v.isScaled then 63 else 64

/-- An integer as a natural number, if there is one and it is not negative. -/
def natural? (found : Option Int) : Option Nat :=
  found.bind fun n => if 0 ≤ n then some n.toNat else none

theorem toNat?_signed (raw : Int64) :
    (signed raw).toNat? = natural? (signed raw).toInt? := rfl

theorem toNat?_scaled (raw : Int) (divisor : Nat) (h : 0 < divisor) :
    (scaled raw divisor h).toNat? = natural? (scaled raw divisor h).toInt? := rfl

theorem natural?_eq_some_iff {found : Option Int} {n : Nat} :
    natural? found = some n ↔ found = some (n : Int) := by
  rw [natural?, Option.bind_eq_some_iff]
  constructor
  · rintro ⟨m, rfl, hnat⟩
    split at hnat
    · next hpos => rw [← Option.some.inj hnat, Int.toNat_of_nonneg hpos]
    · cases hnat
  · rintro rfl
    exact ⟨n, rfl, by simp⟩

theorem toNat?_eq_some_iff (v : Value) (n : Nat) :
    v.toNat? = some n ↔ v.exact = (n : Int) ∧ n < 2 ^ v.naturalBits := by
  cases v with
  | unsigned raw =>
    have hlt := raw.toNat_lt
    rw [exact_eq_iff_of_not_scaled rfl, toNat?, Value.raw, Option.some.injEq]
    show _ ↔ _ ∧ n < 2 ^ (64 : Nat)
    omega
  | signed raw =>
    have hlt := raw.toInt_lt
    rw [toNat?_signed, natural?_eq_some_iff, toInt?_eq_some_iff, exact_eq_iff_of_not_scaled rfl,
      Value.raw]
    show _ ↔ _ ∧ n < 2 ^ (64 : Nat)
    omega
  | scaled raw divisor divisor_pos =>
    rw [toNat?_scaled, natural?_eq_some_iff, toInt?_eq_some_iff]
    show _ ↔ _ ∧ n < 2 ^ (63 : Nat)
    refine and_congr_right fun _ => ?_
    omega

theorem toInt?_eq_none_iff (v : Value) :
    v.toInt? = none ↔ ∀ n : Int, ¬ (v.exact = n ∧ -2 ^ (63 : Nat) ≤ n ∧ n < 2 ^ (63 : Nat)) := by
  rw [Option.eq_none_iff_forall_ne_some]
  exact forall_congr' fun n => not_congr (toInt?_eq_some_iff v n)

theorem toNat?_eq_none_iff (v : Value) :
    v.toNat? = none ↔ ∀ n : Nat, ¬ (v.exact = (n : Int) ∧ n < 2 ^ v.naturalBits) := by
  rw [Option.eq_none_iff_forall_ne_some]
  exact forall_congr' fun n => not_congr (toNat?_eq_some_iff v n)

theorem toInt?_eq_toNat? {n : Int} {m : Nat} (hint : v.toInt? = some n)
    (hnat : v.toNat? = some m) : n = m := by
  have hexact : (n : Rat) = ((m : Int) : Rat) :=
    ((toInt?_eq_some_iff v n).1 hint).1.symm.trans ((toNat?_eq_some_iff v m).1 hnat).1
  exact_mod_cast hexact

theorem natural_iff (v : Value) :
    (∀ n, v.toNat? = some n ↔ v.exact = (n : Int) ∧ n < 2 ^ (64 : Nat)) ↔
      ¬ (v.isScaled = true ∧
        ∃ n : Nat, v.exact = (n : Int) ∧ 2 ^ (63 : Nat) ≤ n ∧ n < 2 ^ (64 : Nat)) := by
  simp only [toNat?_eq_some_iff, naturalBits]
  cases hscaled : v.isScaled with
  | false => simp
  | true =>
    simp only [if_true, true_and]
    constructor
    · rintro hall ⟨n, hexact, hle, hlt⟩
      have := ((hall n).2 ⟨hexact, hlt⟩).2
      omega
    · intro hnone n
      constructor
      · rintro ⟨hexact, hlt⟩
        exact ⟨hexact, by omega⟩
      · rintro ⟨hexact, hlt⟩
        refine ⟨hexact, Nat.lt_of_not_le fun hle => hnone ⟨n, hexact, hle, hlt⟩⟩

end Value

namespace Checked

/-! ## Dividing in 128 bits -/

/-- A value as words hold it. -/
inductive WordValue
  | unsigned (raw : UInt64)
  | signed (raw : Int64)
  | scaled (raw : BitVec 128) (divisor : UInt32) (divisor_ne : divisor ≠ 0)

namespace WordValue

def value : WordValue → Value
  | .unsigned raw => .unsigned raw
  | .signed raw => .signed raw
  | .scaled raw divisor divisor_ne =>
    .scaled raw.toInt divisor.toNat
      (Nat.pos_of_ne_zero fun h => divisor_ne (UInt32.toNat_inj.1 h))

/-- An integer in 64 bits with a sign, if it has room there. -/
def narrow (n : Int) : Option Int64 :=
  if Int64.minValue.toInt ≤ n ∧ n ≤ Int64.maxValue.toInt then some (Int64.ofInt n) else none

def toInt64? : WordValue → Option Int64
  | .unsigned raw => narrow raw.toNat
  | .signed raw => some raw
  | .scaled raw divisor _ =>
    let divisor : BitVec 128 := divisor.toBitVec.setWidth 128
    if raw.srem divisor = 0 then narrow (raw.sdiv divisor).toInt else none

def toUInt64? : WordValue → Option UInt64
  | .unsigned raw => some raw
  | v => v.toInt64?.bind fun n => if 0 ≤ n then some n.toUInt64 else none

theorem map_toInt_narrow (n : Int) :
    (narrow n).map Int64.toInt =
      if Int64.minValue.toInt ≤ n ∧ n ≤ Int64.maxValue.toInt then some n else none := by
  rw [narrow]
  split
  · next hrange =>
    obtain ⟨hle, hge⟩ := hrange
    rw [Int64.toInt_minValue] at hle
    rw [Int64.toInt_maxValue] at hge
    rw [Option.map_some, Int64.toInt_ofInt_of_le hle (by omega)]
  · rfl

theorem toInt_setWidth (divisor : UInt32) :
    (divisor.toBitVec.setWidth 128).toInt = (divisor.toNat : Int) := by
  have hlt := divisor.toNat_lt
  have hnat : (divisor.toBitVec.setWidth 128).toNat = divisor.toNat := by
    rw [BitVec.toNat_setWidth]
    exact Nat.mod_eq_of_lt (by omega)
  rw [BitVec.toInt_eq_toNat_of_lt (by omega), hnat]

theorem srem_eq_zero_iff (raw divisor : BitVec 128) :
    raw.srem divisor = 0 ↔ raw.toInt % divisor.toInt = 0 := by
  rw [← BitVec.toInt_inj, BitVec.toInt_srem, ← Int.dvd_iff_emod_eq_zero,
    Int.dvd_iff_tmod_eq_zero]
  rfl

theorem toInt_sdiv (raw : BitVec 128) (divisor : UInt32)
    (hwhole : raw.toInt % (divisor.toNat : Int) = 0) :
    (raw.sdiv (divisor.toBitVec.setWidth 128)).toInt = raw.toInt / (divisor.toNat : Int) := by
  have hdivisor := toInt_setWidth divisor
  -- the one quotient without room in 128 bits is that by `-1`
  have hne : divisor.toBitVec.setWidth 128 ≠ -1#128 := by
    intro h
    rw [h] at hdivisor
    have hneg : (-1#128 : BitVec 128).toInt = -1 := by decide
    omega
  rw [BitVec.toInt_sdiv_of_ne_or_ne _ _ (.inr hne), hdivisor,
    Int.tdiv_eq_ediv_of_dvd (Int.dvd_of_emod_eq_zero hwhole)]

/-- **Integers are the same when they are divided in 128 bits.** -/
theorem map_toInt_toInt64? (v : WordValue) : v.toInt64?.map Int64.toInt = v.value.toInt? := by
  cases v with
  | unsigned raw => exact map_toInt_narrow _
  | signed raw => rfl
  | scaled raw divisor divisor_ne =>
    rw [toInt64?, value, Value.toInt?]
    simp only [srem_eq_zero_iff, toInt_setWidth]
    by_cases hwhole : raw.toInt % (divisor.toNat : Int) = 0
    · rw [if_pos hwhole, if_pos hwhole, toInt_sdiv raw divisor hwhole, map_toInt_narrow]
    · rw [if_neg hwhole, if_neg hwhole]
      rfl

theorem map_toNat_bind (found : Option Int64) :
    (found.bind fun n => if 0 ≤ n then some n.toUInt64 else none).map UInt64.toNat =
      Value.natural? (found.map Int64.toInt) := by
  cases found with
  | none => rfl
  | some n =>
    simp only [Option.bind_some, Option.map_some, Value.natural?]
    by_cases hpos : 0 ≤ n
    · have hint : 0 ≤ n.toInt := by simpa using Int64.le_iff_toInt_le.1 hpos
      rw [if_pos hpos, if_pos hint, Option.map_some, Int64.toNat_toUInt64_of_le hpos]
      rfl
    · have hint : ¬ 0 ≤ n.toInt := fun h => hpos (Int64.le_iff_toInt_le.2 (by simpa using h))
      rw [if_neg hpos, if_neg hint]
      rfl

theorem map_toNat_toUInt64? (v : WordValue) :
    v.toUInt64?.map UInt64.toNat = v.value.toNat? := by
  cases v with
  | unsigned raw => rfl
  | signed raw =>
    rw [toUInt64?, map_toNat_bind, map_toInt_toInt64?, value, Value.toNat?_signed]
    · intro raw h
      cases h
  | scaled raw divisor divisor_ne =>
    rw [toUInt64?, map_toNat_bind, map_toInt_toInt64?, value, Value.toNat?_scaled]
    · intro raw h
      cases h

end WordValue

end Checked

namespace Value

/-! ## The two readings -/

/-- Everything that is said of a value as an integer and as a natural number. -/
structure IntegersExact (v : Value) : Prop where
  int : ∀ n : Int,
    v.toInt? = some n ↔ v.exact = n ∧ -2 ^ (63 : Nat) ≤ n ∧ n < 2 ^ (63 : Nat)
  no_int : v.toInt? = none ↔
    ∀ n : Int, ¬ (v.exact = n ∧ -2 ^ (63 : Nat) ≤ n ∧ n < 2 ^ (63 : Nat))
  nat : ∀ n : Nat, v.toNat? = some n ↔ v.exact = (n : Int) ∧ n < 2 ^ v.naturalBits
  no_nat : v.toNat? = none ↔ ∀ n : Nat, ¬ (v.exact = (n : Int) ∧ n < 2 ^ v.naturalBits)
  /-- All 64 bits are used for it, unless this is what a divisor takes away. -/
  nat_64 : (∀ n : Nat, v.toNat? = some n ↔ v.exact = (n : Int) ∧ n < 2 ^ (64 : Nat)) ↔
    ¬ (v.isScaled = true ∧
      ∃ n : Nat, v.exact = (n : Int) ∧ 2 ^ (63 : Nat) ≤ n ∧ n < 2 ^ (64 : Nat))
  agree : ∀ (n : Int) (m : Nat), v.toInt? = some n → v.toNat? = some m → n = m
  words : ∀ w : Checked.WordValue, w.value = v →
    w.toInt64?.map Int64.toInt = v.toInt? ∧ w.toUInt64?.map UInt64.toNat = v.toNat?

/-- **A value is given as an integer just when it is one that there is room for.** As a natural
number, a scaled one has no more room than it has as an integer. -/
theorem integers_exact (v : Value) : v.IntegersExact where
  int := v.toInt?_eq_some_iff
  no_int := v.toInt?_eq_none_iff
  nat := v.toNat?_eq_some_iff
  no_nat := v.toNat?_eq_none_iff
  nat_64 := v.natural_iff
  agree := fun _ _ => toInt?_eq_toNat?
  words := by
    rintro w rfl
    exact ⟨w.map_toInt_toInt64?, w.map_toNat_toUInt64?⟩

/-- `2 ^ 63` over `1` is a natural number of 64 bits that is not given. -/
theorem not_forall_toNat?_eq_some_iff :
    ¬ ∀ (v : Value) (n : Nat),
      v.toNat? = some n ↔ v.exact = (n : Int) ∧ n < 2 ^ (64 : Nat) := by
  intro hall
  have hexact : (scaled (2 ^ (63 : Nat)) 1 Nat.one_pos).exact = ((2 ^ (63 : Nat) : Nat) : Int) := by
    rw [exact_eq_iff]
    decide
  have hgiven := (hall _ _).2 ⟨hexact, by decide⟩
  exact absurd hgiven (by decide)

end Value

end Downlink
