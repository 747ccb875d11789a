import Downlink.Counters
import Downlink.Decoder
import Downlink.Source

/-!
# The receive loop

The loop asks its source for a datagram, decodes it, counts it, reports it, publishes the record,
and asks again. A failure of the source is counted and waited out, each time twice as long, until
too many came in a row. What a loop does is a list of timed events, one step a call.

* `run_cons_go`, `run_cons_stop`: a run is its first step and then the run of what is left.
-/

namespace Downlink

structure LoopOptions where
  /-- Failures in a row that end the loop. -/
  maxTransportErrors : Nat
  /-- Half of the first wait, in milliseconds. -/
  backoffBase : Nat
deriving DecidableEq, Repr

namespace LoopOptions

/-- Ten failures, and waits from a tenth of a second on. -/
def default : LoopOptions := ⟨10, 50⟩

def backoff (o : LoopOptions) (failures : Nat) : Nat :=
  o.backoffBase * 2 ^ min failures 5

end LoopOptions

structure ReceiveLoop where
  decoder : Decoder
  options : LoopOptions
  /-- When the loop is cancelled, if it is. -/
  cancelAt : Option Nat
  /-- Whether somebody can receive the published records. -/
  hasReceiver : Bool

namespace ReceiveLoop

inductive Event
  /-- The source is asked for the next datagram. -/
  | requested
  | counted (counters : Counters)
  | accepted (datagram : RawDatagram) (record : Record)
  | rejected (datagram : RawDatagram) (error : DecodeError)
  | published (record : Record)

abbrev TimedEvent := Nat × Event

structure State where
  now : Nat
  /-- The failures since the last datagram. -/
  failures : Nat
  counters : Counters

/-- A loop before its first call. -/
def State.start : State := ⟨0, 0, .zero⟩

inductive Next
  | go (s : State)
  /-- The loop ends at a time, or waits for ever. -/
  | stop (ended : Option Nat)

/-! ## Waiting -/

inductive Waited
  | over (now : Nat)
  | cancelled (now : Nat)
  | never
deriving DecidableEq, Repr

/-- A wait ends when it is over or, if that is earlier, when the loop is cancelled. -/
def waitUntil (l : ReceiveLoop) (end? : Option Nat) : Waited :=
  match end?, l.cancelAt with
  | some t, some c => if c < t then .cancelled c else .over t
  | some t, none => .over t
  | none, some c => .cancelled c
  | none, none => .never

/-! ## Steps -/

def receive (l : ReceiveLoop) (s : State) (d : RawDatagram) : List TimedEvent × Next :=
  match l.decoder.decode d.bytes with
  | .ok record =>
    let counters := s.counters.addRecord
    let reported := [(s.now, Event.counted counters), (s.now, .accepted d record)]
    if l.hasReceiver then
      (reported ++ [(s.now, .published record)], .go { s with failures := 0, counters })
    else (reported, .stop (some s.now))
  | .error error =>
    let counters := s.counters.addFailure error
    ([(s.now, .counted counters), (s.now, .rejected d error)],
      .go { s with failures := 0, counters })

/-- Whether a failure, with those in a row before it, ends the loop. -/
def givesUp (l : ReceiveLoop) (error : LinkError) (failures : Nat) : Bool :=
  !error.isRetryable || l.options.maxTransportErrors ≤ failures

def recover (l : ReceiveLoop) (s : State) (error : LinkError) : List TimedEvent × Next :=
  let counters := s.counters.addTransportError
  let failures := s.failures + 1
  let counted := [(s.now, Event.counted counters)]
  if l.givesUp error failures then (counted, .stop (some s.now))
  else
    match l.waitUntil (some (s.now + l.options.backoff failures)) with
    | .over now => (counted, .go { s with now, failures, counters })
    | .cancelled now => (counted, .stop (some now))
    | .never => (counted, .stop none)

def step (l : ReceiveLoop) (s : State) (call : Call) : List TimedEvent × Next :=
  let asked := (s.now, Event.requested)
  match l.waitUntil (call.wait.end? s.now) with
  | .never => ([asked], .stop none)
  | .cancelled now => ([asked], .stop (some now))
  | .over now =>
    let s := { s with now }
    match call.answer with
    | .exhausted => ([asked], .stop (some now))
    | .datagram d =>
      let (events, next) := l.receive s d
      (asked :: events, next)
    | .failure error =>
      let (events, next) := l.recover s error
      (asked :: events, next)

/-! ## Runs -/

/-- Everything that a loop does, and when it ends, if it does. -/
structure Run where
  events : List TimedEvent
  ended : Option Nat

def Run.after (earlier : List TimedEvent) (r : Run) : Run :=
  ⟨earlier ++ r.events, r.ended⟩

def run (l : ReceiveLoop) (s : State) : Source → Run
  | [] => ⟨[(s.now, .requested)], some s.now⟩
  | call :: rest =>
    match l.step s call with
    | (events, .stop ended) => ⟨events, ended⟩
    | (events, .go s) => (run l s rest).after events

theorem run_cons_go {l : ReceiveLoop} {s t : State} {call : Call} {events : List TimedEvent}
    (h : l.step s call = (events, .go t)) (rest : Source) :
    l.run s (call :: rest) = (l.run t rest).after events := by
  rw [run, h]

theorem run_cons_stop {l : ReceiveLoop} {s : State} {call : Call} {events : List TimedEvent}
    {ended : Option Nat} (h : l.step s call = (events, .stop ended)) (rest : Source) :
    l.run s (call :: rest) = ⟨events, ended⟩ := by
  rw [run, h]

def start (l : ReceiveLoop) (source : Source) : Run :=
  l.run .start source

namespace Run

def counts (r : Run) : List (Nat × Counters) :=
  r.events.filterMap fun
    | (t, .counted counters) => some (t, counters)
    | _ => none

def publications (r : Run) : List (Nat × Record) :=
  r.events.filterMap fun
    | (t, .published record) => some (t, record)
    | _ => none

/-- The last of timed values up to a time. -/
def lastUntil {α : Type} (time : Nat) (timed : List (Nat × α)) : Option α :=
  (timed.filter (·.1 ≤ time)).getLast?.map Prod.snd

def countersAt (r : Run) (time : Nat) : Counters :=
  (lastUntil time r.counts).getD .zero

/-- The latest record when everything that happens at a time has happened. -/
def latestAt (r : Run) (time : Nat) : Option Record :=
  lastUntil time r.publications

def isRunningAt (r : Run) (time : Nat) : Bool :=
  r.ended.all (time < ·)

def counters (r : Run) : Counters :=
  (r.counts.getLast?.map Prod.snd).getD .zero

def latest (r : Run) : Option Record :=
  r.publications.getLast?.map Prod.snd

end Run

end ReceiveLoop

end Downlink
