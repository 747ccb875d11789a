import Downlink.ReceiveLoop
import Downlink.Subscription

/-!
# Connections

A connection is a running loop with the two channels that it writes: the latest record and the
counters. Whoever looks at a moment finds everything done that the loop does at that moment.

* `Session.report`: what subscribers get and what requests are answered, over a whole connection.
-/

namespace Downlink

structure Connection where
  layout : Layout
  run : ReceiveLoop.Run

namespace Connection

/-- Runs a loop over a source. The connection itself can receive the records. -/
def start (decoder : Decoder) (options : LoopOptions) (cancelAt : Option Nat) (source : Source) :
    Connection :=
  ⟨decoder.layout, ReceiveLoop.start ⟨decoder, options, cancelAt, true⟩ source⟩

/-- Whether the loop has ended when everything that happens at a time has happened. -/
def hasEnded (c : Connection) (time : Nat) : Bool :=
  !c.run.isRunningAt time

def recordsAt (c : Connection) (time : Nat) : RecordChannel :=
  let published := (c.run.publications.filter (·.1 ≤ time)).map Prod.snd
  let channel := published.foldl RecordChannel.publish (Watch.new none)
  if c.hasEnded time then channel.close else channel

/-- A moment and, behind it, each at which something was published or the loop ended. -/
def recordMoments (c : Connection) (since : Nat) : List (Nat × RecordChannel) :=
  let times := c.run.publications.map Prod.fst ++ c.run.ended.toList
  let moments := since :: (times.filter (since < ·)).eraseReps
  moments.map fun now => (now, c.recordsAt now)

/-- What a subscriber gets that comes at a time, and when. -/
def subscribe (c : Connection) (since : Nat) (rate : UpdateRate) :
    List (Nat × Option Publication) :=
  Subscription.polling.follow 3 (.new rate) (c.recordMoments since)

def counterUpdates (c : Connection) (since : Nat) : List (Nat × Counters) :=
  let later := ((c.run.counts.map Prod.fst).filter (since < ·)).eraseReps
  (since :: later).map fun now => (now, c.run.countersAt now)

end Connection

/-! ## Sessions -/

namespace Session

inductive Subject
  /-- Records, at the rate of the connection if none is chosen, and no more than a number. -/
  | records (rate : Option UpdateRate) (limit : Option Nat)
  | counters
deriving DecidableEq, Repr

structure Subscriber where
  arrivesAt : Nat
  subject : Subject
deriving DecidableEq, Repr

/-- What a connection can be asked, and told. -/
inductive Request
  | latest
  | counters
  | isRunning
  | frameBits
  | localAddress
  | cancel
deriving DecidableEq, Repr

inductive Ending
  | finished
  | shutdown
  | dropped
deriving DecidableEq, Repr

inductive Delivery
  /-- Nothing: the connection ended before. -/
  | gone
  | records (items : List (Nat × Option Publication))
  | counters (items : List (Nat × Counters))

inductive Reply
  | latest (record : Option Record)
  | counters (c : Counters)
  | isRunning (b : Bool)
  | frameBits (bits : Nat)
  | localAddress (address : Option String)
  | cancelled

end Session

structure Session where
  decoder : Decoder
  options : LoopOptions
  source : Source
  defaultRate : UpdateRate
  subscribers : List Session.Subscriber
  /-- Requests in order, each with the time at which it is made at the earliest. -/
  requests : List (Nat × Session.Request)
  ending : Session.Ending
  /-- The time at which the connection ends at the earliest. -/
  endsAt : Nat

namespace Session

/-- Each request at the time at which it is made: none is made before the one in front of it. -/
def timedRequests (earliest : Nat) : List (Nat × Request) → List (Nat × Request)
  | [] => []
  | (time, request) :: rest =>
    let time := max earliest time
    (time, request) :: timedRequests time rest

def requestTimes (s : Session) : List (Nat × Request) :=
  timedRequests 0 s.requests

/-- The time at which the connection is ended: after the last request. -/
def closesAt (s : Session) : Nat :=
  max s.endsAt (s.requestTimes.getLast?.elim 0 Prod.fst)

def cancelAt (s : Session) : Option Nat :=
  let requested := (s.requestTimes.find? (·.2 = .cancel)).map Prod.fst
  match s.ending with
  | .finished => requested
  | _ => some (requested.getD s.closesAt)

def connection (s : Session) : Connection :=
  .start s.decoder s.options s.cancelAt s.source

def deliver (s : Session) (c : Connection) (subscriber : Subscriber) : Delivery :=
  if s.closesAt ≤ subscriber.arrivesAt then .gone
  else
    match subscriber.subject with
    | .records rate limit =>
      let items := c.subscribe subscriber.arrivesAt (rate.getD s.defaultRate)
      .records (limit.elim items items.take)
    | .counters => .counters (c.counterUpdates subscriber.arrivesAt)

def reply (c : Connection) (time : Nat) : Request → Reply
  | .latest => .latest (c.run.latestAt time)
  | .counters => .counters (c.run.countersAt time)
  | .isRunning => .isRunning (c.run.isRunningAt time)
  | .frameBits => .frameBits c.layout.frameBits
  | .localAddress => .localAddress none
  | .cancel => .cancelled

structure Report where
  deliveries : List Delivery
  replies : List (Nat × Request × Reply)
  /-- The counters at the end, unless the connection was given up. -/
  counters : Option Counters
  endedAt : Nat

def report (s : Session) : Report :=
  let c := s.connection
  { deliveries := s.subscribers.map (s.deliver c)
    replies := s.requestTimes.map fun (time, request) => (time, request, reply c time request)
    counters := if s.ending = .dropped then none else some c.run.counters
    endedAt := if s.ending = .finished then max s.closesAt (c.run.ended.getD 0) else s.closesAt }

end Session

end Downlink
