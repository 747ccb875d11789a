import Downlink.Field
import Downlink.Text.Json

/-!
# Field values

A decoded value keeps the raw integer of the wire. A scaled one keeps its divisor beside it and
divides only when a fraction is asked for.
-/

namespace Downlink

inductive Value
  | unsigned (raw : UInt64)
  | signed (raw : Int64)
  | scaled (raw : Int) (divisor : Nat) (divisor_pos : 0 < divisor)
deriving DecidableEq, Repr

namespace Value

/-- A scaled value, unless the divisor is zero. -/
def scaled? (raw : Int) (divisor : Nat) : Option Value :=
  if h : 0 < divisor then some (.scaled raw divisor h) else none

def ofRaw (f : Field) (raw : Int) : Value :=
  if h : 0 < f.scale.toNat ∧ f.scale ≠ 1 then .scaled raw f.scale.toNat h.1
  else if f.signed then .signed (Int64.ofInt raw)
  else .unsigned (UInt64.ofNat raw.toNat)

def raw : Value → Int
  | .unsigned n => n.toNat
  | .signed n => n.toInt
  | .scaled n _ _ => n

def toBinary64 : Value → Binary64
  | .unsigned n => .ofNat n.toNat
  | .signed n => .ofInt n.toInt
  | .scaled n divisor _ => (Binary64.ofInt n).div (.ofNat divisor)

/-- The engineering value as an integer, if it is whole and fits in 64 bits with a sign. -/
def toInt? (v : Value) : Option Int :=
  let inRange (n : Int) :=
    if Int64.minValue.toInt ≤ n ∧ n ≤ Int64.maxValue.toInt then some n else none
  match v with
  | .unsigned n => inRange n.toNat
  | .signed n => some n.toInt
  | .scaled n divisor _ => if n % divisor = 0 then inRange (n / divisor) else none

/-- The engineering value as a natural number: any unsigned one, and else an integer that `toInt?`
gives and that is not negative. -/
def toNat? : Value → Option Nat
  | .unsigned n => some n.toNat
  | v => v.toInt?.bind fun n => if 0 ≤ n then some n.toNat else none

def isScaled : Value → Bool
  | .scaled .. => true
  | _ => false

def text : Value → String
  | .unsigned n => toString n.toNat
  | .signed n => toString n.toInt
  | v => toString v.toBinary64

def toJson : Value → Json
  | .unsigned n => .int n.toNat
  | .signed n => .int n.toInt
  | v => .number v.toBinary64

end Value

end Downlink
