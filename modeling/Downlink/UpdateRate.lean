/-!
# Update rates

How often a subscriber wants records. A rate is a bound on one subscriber, not a property of the
link: datagrams come when they come.
-/

namespace Downlink

inductive UpdateRate
  | native
  /-- At most so many records a second. -/
  | max (perSecond : UInt32)
deriving DecidableEq, Repr

namespace UpdateRate

/-- Nanoseconds from one record to the next, rounded down; none when nothing is held back. A bound
of zero holds nothing back. -/
def interval? : UpdateRate → Option Nat
  | .native => none
  | .max perSecond =>
    if perSecond = 0 then none else some (1000000000 / perSecond.toNat)

end UpdateRate

end Downlink
