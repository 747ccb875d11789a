import Downlink.Capture.Reader
import Downlink.Source

/-!
# Replays

A replay hands over the datagrams of a capture at the pace at which they came, or faster or slower,
or all at once. The times count from the first call, so a late datagram delays none behind it.

* `countsFrom_source`: the datagrams are numbered as they are handed over.
-/

namespace Downlink

structure Replay where
  reader : Capture.Reader
  /-- How many times as fast as recorded; none waits for nothing. -/
  speed : Option Binary64
  /-- Datagrams handed over so far. -/
  sequence : Nat
deriving DecidableEq, Repr

namespace Replay

def ofReader (reader : Capture.Reader) : Replay :=
  ⟨reader, some (.ofNat 1), 0⟩

/-- The lowest speed, one tenth. -/
def slowest : Binary64 := .round false 1 10

/-- The highest speed, a hundred. -/
def fastest : Binary64 := .ofNat 100

/-- A speed within the range. What is not a number counts as one. -/
def clamp (speed : Binary64) : Binary64 :=
  if speed.isNaN then .ofNat 1
  else if speed.lt slowest then slowest
  else if fastest.lt speed then fastest
  else speed

def withSpeed (r : Replay) (speed : Binary64) : Replay :=
  { r with speed := some (clamp speed) }

def unpaced (r : Replay) : Replay :=
  { r with speed := none }

/-- What is replayed, as a location. -/
def location (r : Replay) : String :=
  "replay://" ++ r.reader.path

/-! ## Pace -/

/-- Nanoseconds as seconds: the whole seconds and the rest are converted apart and added. -/
def seconds (nanoseconds : Nat) : Binary64 :=
  (Binary64.ofNat (nanoseconds / 1000000000)).add
    ((Binary64.ofNat (nanoseconds % 1000000000)).div (.ofNat 1000000000))

/-- The whole number of nanoseconds nearest to a number of seconds; a tie goes to the even one. -/
def nanosecondsOf : Binary64 → Nat
  | .finite false significand exponent =>
    if 0 ≤ exponent then (significand <<< exponent.toNat) * 1000000000
    else roundQuotient (significand * 1000000000) (1 <<< (-exponent).toNat)
  | _ => 0

/-- The nanoseconds from the start of a replay to the datagram of a recorded time. -/
def delay (speed : Binary64) (time : UInt64) : Nat :=
  nanosecondsOf ((seconds time.toNat).div speed)

/-- Nanoseconds in milliseconds, rounded up. -/
def millisecondsUp (nanoseconds : Nat) : Nat :=
  (nanoseconds + 999999) / 1000000

/-- The wait for the datagram of a recorded time, in a replay that began at `start`. -/
def wait (speed : Option Binary64) (start : Nat) (time : UInt64) : Wait :=
  match speed with
  | none => .pause 0
  | some speed => .due (start + millisecondsUp (delay speed time))

/-- The call that hands over an entry under a number, or fails. -/
def call (speed : Option Binary64) (start sequence : Nat) :
    Except LinkError Capture.Entry → Call
  | .ok entry => ⟨wait speed start entry.time, .datagram ⟨entry.datagram, sequence⟩⟩
  | .error error => ⟨.pause 0, .failure error⟩

/-- The calls for what is found in a capture. Only entries are numbered. -/
def calls (speed : Option Binary64) (start : Nat) :
    Nat → List (Except LinkError Capture.Entry) → Source
  | _, [] => []
  | sequence, .ok entry :: rest =>
    call speed start sequence (.ok entry) :: calls speed start (sequence + 1) rest
  | sequence, .error error :: rest =>
    call speed start sequence (.error error) :: calls speed start sequence rest

/-- The calls of a replay whose first call is made at `start`. -/
def source (r : Replay) (start : Nat) : Source :=
  calls r.speed start r.sequence r.reader.toList

theorem countsFrom_calls (speed : Option Binary64) (start sequence : Nat)
    (found : List (Except LinkError Capture.Entry)) :
    (calls speed start sequence found).CountsFrom sequence := by
  induction found generalizing sequence with
  | nil => rfl
  | cons first rest ih =>
    cases first with
    | error error => exact Source.countsFrom_cons_of_not_datagram nofun (ih sequence)
    | ok entry => exact Source.countsFrom_cons_of_datagram rfl rfl (ih (sequence + 1))

theorem countsFrom_source (r : Replay) (start : Nat) : (r.source start).CountsFrom r.sequence :=
  countsFrom_calls r.speed start r.sequence r.reader.toList

end Replay

end Downlink
