/-!
# Binary64 arithmetic

Engineering values are IEEE 754 binary64 numbers. Here such a number is its exact value, a sign
and a significand times a power of two, and every operation is the exact rational result passed
through the one rounding function `Binary64.round`: to nearest, ties to even.

* `roundQuotient_eq_of_dvd`: an exact quotient is not changed by rounding.
-/

namespace Downlink

/-- A binary64 number. A finite one is `± significand · 2 ^ exponent`; it is kept with
`significand < 2 ^ 53` and `exponent ≥ -1074`, and with `significand ≥ 2 ^ 52` unless
`exponent = -1074`, so that each number has one form. -/
inductive Binary64
  | nan
  | infinity (negative : Bool)
  | finite (negative : Bool) (significand : Nat) (exponent : Int)
deriving DecidableEq, Repr, Inhabited

/-! ## Rounding -/

/-- The whole number nearest to `num / den`; a tie goes to the even neighbour. -/
def roundQuotient (num den : Nat) : Nat :=
  let quotient := num / den
  let twice := 2 * (num % den)
  if twice < den ∨ (twice = den ∧ quotient % 2 = 0) then quotient else quotient + 1

/-- The whole number nearest to `num / den`; a tie goes away from zero. -/
def roundQuotientUp (num den : Nat) : Nat :=
  let quotient := num / den
  if 2 * (num % den) < den then quotient else quotient + 1

theorem roundQuotient_eq_of_dvd {num den : Nat} (hden : 0 < den) (h : den ∣ num) :
    roundQuotient num den = num / den := by
  have hmod : num % den = 0 := Nat.mod_eq_zero_of_dvd h
  simp [roundQuotient, hmod, hden]

/-- The largest `k` with `2 ^ k ≤ num / den`, for positive `num` and `den`. -/
def floorLog2 (num den : Nat) : Int :=
  let estimate := (num.log2 : Int) - den.log2
  let reached :=
    if 0 ≤ estimate then den <<< estimate.toNat ≤ num else den ≤ num <<< (-estimate).toNat
  if reached then estimate else estimate - 1

namespace Binary64

/-- The least significand of a number in full precision, `2 ^ 52`. -/
def leastNormal : Nat := 0x10000000000000

/-- Zero with a sign. -/
def zero (negative : Bool) : Binary64 :=
  .finite negative 0 (-1074)

/-- The number nearest to `± num / den`, ties to even; too large a value becomes an infinity. -/
def round (negative : Bool) (num den : Nat) : Binary64 :=
  if num = 0 ∨ den = 0 then zero negative
  else
    let exponent := max (floorLog2 num den - 52) (-1074)
    let significand :=
      if 0 ≤ exponent then roundQuotient num (den <<< exponent.toNat)
      else roundQuotient (num <<< (-exponent).toNat) den
    let (significand, exponent) :=
      if significand = 2 * leastNormal then (leastNormal, exponent + 1) else (significand, exponent)
    if 971 < exponent then .infinity negative else .finite negative significand exponent

/-- Rounds `± significand · 2 ^ exponent`. -/
def roundScaled (negative : Bool) (significand : Nat) (exponent : Int) : Binary64 :=
  if 0 ≤ exponent then round negative (significand <<< exponent.toNat) 1
  else round negative significand (1 <<< (-exponent).toNat)

def ofInt (n : Int) : Binary64 :=
  round (n < 0) n.natAbs 1

def ofNat (n : Nat) : Binary64 :=
  round false n 1

/-! ## Operations -/

def isFinite : Binary64 → Bool
  | .finite .. => true
  | _ => false

def isNaN : Binary64 → Bool
  | .nan => true
  | _ => false

/-- Product, rounded to nearest. -/
def mul : Binary64 → Binary64 → Binary64
  | .finite s m p, .finite t n q => roundScaled (s != t) (m * n) (p + q)
  | .infinity s, .infinity t => .infinity (s != t)
  | .infinity s, .finite t n _ => if n = 0 then .nan else .infinity (s != t)
  | .finite s m _, .infinity t => if m = 0 then .nan else .infinity (s != t)
  | .nan, _ => .nan
  | _, .nan => .nan

/-- Quotient, rounded to nearest. -/
def div : Binary64 → Binary64 → Binary64
  | .finite s m p, .finite t n q =>
    if n = 0 then (if m = 0 then .nan else .infinity (s != t))
    else if q ≤ p then round (s != t) (m <<< (p - q).toNat) n
    else round (s != t) m (n <<< (q - p).toNat)
  | .infinity s, .finite t _ _ => .infinity (s != t)
  | .finite s _ _, .infinity t => zero (s != t)
  | .infinity _, .infinity _ => .nan
  | .nan, _ => .nan
  | _, .nan => .nan

/-- The signed significand of a finite number when its unit is `2 ^ unit`, for `unit ≤ exponent`. -/
def significandAt (negative : Bool) (significand : Nat) (exponent unit : Int) : Int :=
  let magnitude : Int := (significand <<< (exponent - unit).toNat : Nat)
  if negative then -magnitude else magnitude

/-- Sum, rounded to nearest; opposite zeros add to positive zero. -/
def add : Binary64 → Binary64 → Binary64
  | .finite s m p, .finite t n q =>
    let unit := min p q
    let sum := significandAt s m p unit + significandAt t n q unit
    if sum = 0 then zero (s && t) else roundScaled (sum < 0) sum.natAbs unit
  | .infinity s, .infinity t => if s = t then .infinity s else .nan
  | .infinity s, .finite .. => .infinity s
  | .finite .., .infinity t => .infinity t
  | .nan, _ => .nan
  | _, .nan => .nan

/-- `x < y`; false when either is not a number. -/
def lt : Binary64 → Binary64 → Bool
  | .finite s m p, .finite t n q =>
    let unit := min p q
    significandAt s m p unit < significandAt t n q unit
  | .infinity s, .infinity t => s && !t
  | .infinity s, .finite .. => s
  | .finite .., .infinity t => !t
  | .nan, _ => false
  | _, .nan => false

/-- The nearest integer, halves going away from zero; none for infinities and NaN. -/
def toIntRounded? : Binary64 → Option Int
  | .finite negative significand exponent =>
    let magnitude :=
      if 0 ≤ exponent then significand <<< exponent.toNat
      else roundQuotientUp significand (1 <<< (-exponent).toNat)
    some (if negative then -(magnitude : Int) else magnitude)
  | _ => none

/-! ## Interchange format -/

/-- The 64 bits of the interchange format. -/
def toBits : Binary64 → Nat
  | .nan => 0x7ff8000000000000
  | .infinity negative => negative.toNat <<< 63 + 0x7ff0000000000000
  | .finite negative significand exponent =>
    negative.toNat <<< 63 +
      if significand < leastNormal then significand
      else ((exponent + 1075).toNat <<< 52) + (significand - leastNormal)

/-- The number that 64 bits of the interchange format stand for. -/
def ofBits (bits : Nat) : Binary64 :=
  let negative := bits.testBit 63
  let biased : Nat := (bits >>> 52) % 2048
  let fraction : Nat := bits % leastNormal
  if biased = 2047 then (if fraction = 0 then .infinity negative else .nan)
  else if biased = 0 then .finite negative fraction (-1074)
  else .finite negative (leastNormal + fraction) ((biased : Int) - 1075)

end Binary64

end Downlink
