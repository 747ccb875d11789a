import Downlink.Record
import Downlink.Throttle
import Downlink.UpdateRate
import Downlink.Watch

/-!
# Subscriptions

A subscription is a stream of the records that a loop publishes. It begins with the record that is
there, gives each record at most once, and skips those that were replaced before it was polled.
When the channel is closed it still gives the last record, if it has not, and then ends. A rate
throttles it.
-/

namespace Downlink

structure Publication where
  place : Nat
  record : Record
deriving DecidableEq, Repr

/-- The channel of published records: none before the first. -/
abbrev RecordChannel := Watch (Option Publication)

def RecordChannel.publish (w : RecordChannel) (record : Record) : RecordChannel :=
  w.send (some ⟨w.version, record⟩)

structure LatestRecords where
  receiver : Watch.Receiver
  /-- The place of the record given last. -/
  last : Option Nat
  finished : Bool
deriving DecidableEq, Repr

namespace LatestRecords

/-- The value in the channel counts as new, whatever has been seen. -/
def new : LatestRecords := ⟨Watch.Receiver.new.markChanged, none, false⟩

/-- The record in the channel if it was not given. -/
def unseen (s : LatestRecords) (w : RecordChannel) : Option Publication :=
  w.value.filter fun p => s.last ≠ some p.place

/-- Reads the channel after a look for a change; none if it has to be looked at again. Behind the end
of a channel there is nothing to look for. -/
def read (s : LatestRecords) (w : RecordChannel) (isOpen : Bool) :
    Option (Poll Publication) × LatestRecords :=
  let receiver := .markSeen w
  match s.unseen w, isOpen with
  | some p, true => (some (.item p), ⟨receiver, some p.place, false⟩)
  | some p, false => (some (.item p), ⟨receiver, s.last, true⟩)
  | none, true => (none, ⟨receiver, s.last, false⟩)
  | none, false => (some .ended, ⟨receiver, s.last, true⟩)

/-- One look at the channel, which is read if it changed or was closed. -/
def look (s : LatestRecords) (w : RecordChannel) : Option (Poll Publication) × LatestRecords :=
  match s.receiver.changed w with
  | .waiting => (some .waiting, s)
  | .changed => s.read w true
  | .closed => s.read w false

/-- Looks until there is something to tell. A second look finds no change, so it suffices. -/
def poll (s : LatestRecords) (w : RecordChannel) : Poll Publication × LatestRecords :=
  if s.finished then (.ended, s)
  else
    match s.look w with
    | (some p, s) => (p, s)
    | (none, s) =>
      match s.look w with
      | (some p, s) => (p, s)
      | (none, s) => (.waiting, s)

/-- Polls until the stream waits or ends. After one record there is nothing more to give. -/
def burst (w : RecordChannel) (s : LatestRecords) : Burst Publication × LatestRecords :=
  match s.poll w with
  | (.item p, s) =>
    match s.poll w with
    | (.ended, s) => (⟨[p], true⟩, s)
    | (_, s) => (⟨[p], false⟩, s)
  | (.waiting, s) => (.none, s)
  | (.ended, s) => (⟨[], true⟩, s)

end LatestRecords

/-- A stream of records, throttled or not. -/
structure Subscription where
  records : LatestRecords
  throttle : Option (Throttle Publication)
deriving DecidableEq, Repr

namespace Subscription

def new (rate : UpdateRate) : Subscription :=
  ⟨.new, rate.interval?.map .new⟩

/-- Polls a subscription at a time in milliseconds. -/
def poll (s : Subscription) (w : RecordChannel) (now : Nat) : Poll Publication × Subscription :=
  match s.throttle with
  | none =>
    let (given, records) := s.records.poll w
    (given, { s with records })
  | some t =>
    let (given, t, records) := t.poll (LatestRecords.burst w) s.records (now * 1000000)
    (given, ⟨records, some t⟩)

def polling : Polling Subscription RecordChannel Publication where
  poll := poll
  wake? s := s.throttle.bind Throttle.wake?

end Subscription

end Downlink
