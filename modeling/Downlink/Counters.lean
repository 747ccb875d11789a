import Downlink.Error
import Downlink.Text.Json

/-!
# Counters

How many datagrams came, what became of them, and how often the source failed.

* `Balanced`: every counted datagram is a record or a failure; counting keeps it so.
-/

namespace Downlink

structure Counters where
  datagrams : Nat
  records : Nat
  syncNotFound : Nat
  terminatorNotFound : Nat
  insufficientBits : Nat
  trailingBits : Nat
  otherFieldErrors : Nat
  transportErrors : Nat
deriving DecidableEq, Repr

namespace Counters

def zero : Counters := ⟨0, 0, 0, 0, 0, 0, 0, 0⟩

def addRecord (c : Counters) : Counters :=
  { c with datagrams := c.datagrams + 1, records := c.records + 1 }

def addFailure (c : Counters) (e : DecodeError) : Counters :=
  let c := { c with datagrams := c.datagrams + 1 }
  match e with
  | .framing (.syncNotFound ..) => { c with syncNotFound := c.syncNotFound + 1 }
  | .framing (.terminatorNotFound ..) => { c with terminatorNotFound := c.terminatorNotFound + 1 }
  | .unpacking (.insufficientBits ..) => { c with insufficientBits := c.insufficientBits + 1 }
  | .unpacking (.trailingBits ..) => { c with trailingBits := c.trailingBits + 1 }
  | .unpacking _ => { c with otherFieldErrors := c.otherFieldErrors + 1 }

def addTransportError (c : Counters) : Counters :=
  { c with transportErrors := c.transportErrors + 1 }

def failures (c : Counters) : Nat :=
  c.syncNotFound + c.terminatorNotFound + c.insufficientBits + c.trailingBits + c.otherFieldErrors

/-- The share of datagrams that gave a record; none before the first datagram. -/
def successRatio? (c : Counters) : Option Binary64 :=
  if c.datagrams = 0 then none
  else some ((Binary64.ofNat c.records).div (.ofNat c.datagrams))

def named (c : Counters) : List (String × Nat) :=
  [("datagrams", c.datagrams),
   ("records", c.records),
   ("sync_not_found", c.syncNotFound),
   ("terminator_not_found", c.terminatorNotFound),
   ("insufficient_bits", c.insufficientBits),
   ("trailing_bits", c.trailingBits),
   ("other_field_errors", c.otherFieldErrors),
   ("transport_errors", c.transportErrors)]

def toJson (c : Counters) : Json :=
  .object (c.named.map fun (name, count) => (name, .int count))

def lines (c : Counters) : List String :=
  c.named.map fun (name, count) => "  " ++ name ++ ": " ++ toString count

def Balanced (c : Counters) : Prop :=
  c.datagrams = c.records + c.failures

theorem balanced_zero : zero.Balanced := rfl

theorem Balanced.addRecord {c : Counters} (h : c.Balanced) : c.addRecord.Balanced := by
  simp only [Balanced, failures, Counters.addRecord] at *
  omega

theorem Balanced.addFailure {c : Counters} (h : c.Balanced) (e : DecodeError) :
    (c.addFailure e).Balanced := by
  simp only [Balanced, failures] at *
  rcases e with (_ | _) | _
  · simp only [Counters.addFailure]; omega
  · simp only [Counters.addFailure]; omega
  · rename_i cause
    cases cause <;> simp only [Counters.addFailure] <;> omega

theorem Balanced.addTransportError {c : Counters} (h : c.Balanced) :
    c.addTransportError.Balanced := h

end Counters

end Downlink
