import Downlink.Proofs.CallsMade
import Downlink.Proofs.FrameInDatagram

/-!
# What a loop accounts for

Of all that a loop does about the calls that it makes, one may look at the requests, the reports,
the counters or the published records alone. Each of them is a plain function of the calls
(`Accounts`), and the calls are those up to the first that ends the loop (`start_accounts`).
-/

namespace Downlink

namespace ReceiveLoop

/-! ## Kinds of events -/

namespace Event

def isRequest : Event → Bool
  | .requested => true
  | _ => false

def isReport : Event → Bool
  | .accepted .. => true
  | .rejected .. => true
  | _ => false

def counters? : Event → Option Counters
  | .counted counters => some counters
  | _ => none

def published? : Event → Option Record
  | .published record => some record
  | _ => none

end Event

/-- The last counters that events put forth, or those before. -/
def lastCounters (first : Counters) (events : List Event) : Counters :=
  ((events.filterMap Event.counters?).getLast?).getD first

theorem lastCounters_append (first : Counters) (events more : List Event) :
    lastCounters first (events ++ more) = lastCounters (lastCounters first events) more := by
  simp only [lastCounters, List.filterMap_append, List.getLast?_append]
  cases (more.filterMap Event.counters?).getLast? <;> rfl

namespace Run

variable (r : Run)

theorem counts_map_snd :
    r.counts.map Prod.snd = (r.events.map Prod.snd).filterMap Event.counters? := by
  rw [counts, List.map_filterMap, List.filterMap_map]
  congr 1
  funext ⟨time, event⟩
  cases event <;> rfl

theorem publications_map_snd :
    r.publications.map Prod.snd = (r.events.map Prod.snd).filterMap Event.published? := by
  rw [publications, List.map_filterMap, List.filterMap_map]
  congr 1
  funext ⟨time, event⟩
  cases event <;> rfl

theorem latest_eq : r.latest = ((r.events.map Prod.snd).filterMap Event.published?).getLast? := by
  rw [latest, ← publications_map_snd, List.getLast?_map]

theorem counters_eq : r.counters = lastCounters .zero (r.events.map Prod.snd) := by
  rw [counters, lastCounters, ← counts_map_snd, List.getLast?_map]

end Run

/-! ## What is done about calls -/

variable {l : ReceiveLoop}

theorem countP_isRequest_doings (l : ReceiveLoop) (before calls : Source) :
    (l.doings before calls).countP Event.isRequest = calls.length := by
  induction calls generalizing before with
  | nil => rfl
  | cons call rest ih =>
    have hdeeds : (l.deeds before call).countP Event.isRequest = 1 := by
      unfold deeds
      cases call.answer with
      | exhausted => rfl
      | failure error => rfl
      | datagram d =>
        simp only [report]
        cases l.publication? d.bytes <;> cases l.decoder.decode d.bytes <;> rfl
    rw [doings, List.countP_append, hdeeds, ih, List.length_cons, Nat.add_comm]

theorem filter_isReport_doings (l : ReceiveLoop) (before calls : Source) :
    (l.doings before calls).filter Event.isReport = calls.received.map l.report := by
  induction calls generalizing before with
  | nil => rfl
  | cons call rest ih =>
    rw [doings, List.filter_append, ih]
    cases hcall : call.answer with
    | datagram d =>
      have hdeeds : (l.deeds before call).filter Event.isReport = [l.report d] := by
        simp only [deeds, hcall, report]
        cases l.publication? d.bytes <;> cases l.decoder.decode d.bytes <;> rfl
      rw [hdeeds, Source.received_cons_of_datagram hcall]
      rfl
    | failure error =>
      rw [Source.received_cons_of_not_datagram (by simp [hcall])]
      simp [deeds, hcall, Event.isReport]
    | exhausted =>
      rw [Source.received_cons_of_not_datagram (by simp [hcall])]
      simp [deeds, hcall, Event.isReport]

theorem filterMap_published?_doings (l : ReceiveLoop) (before calls : Source) :
    (l.doings before calls).filterMap Event.published? =
      calls.datagrams.filterMap l.publication? := by
  induction calls generalizing before with
  | nil => rfl
  | cons call rest ih =>
    rw [doings, List.filterMap_append, ih]
    cases hcall : call.answer with
    | datagram d =>
      rw [Source.datagrams_cons_of_datagram hcall, List.filterMap_cons]
      simp only [deeds, hcall, report]
      cases l.publication? d.bytes <;> cases l.decoder.decode d.bytes <;> rfl
    | failure error =>
      rw [Source.datagrams_cons_of_not_datagram (by simp [hcall])]
      simp [deeds, hcall, Event.published?]
    | exhausted =>
      rw [Source.datagrams_cons_of_not_datagram (by simp [hcall])]
      simp [deeds, hcall, Event.published?]

theorem lastCounters_deeds (l : ReceiveLoop) (before : Source) (call : Call) :
    lastCounters (l.tally before) (l.deeds before call) = l.tally (before ++ [call]) := by
  cases hcall : call.answer with
  | datagram d =>
    simp only [deeds, hcall, report]
    cases l.publication? d.bytes <;> cases l.decoder.decode d.bytes <;> rfl
  | failure error =>
    simp only [deeds, hcall]
    rfl
  | exhausted =>
    rw [tally_concat]
    simp only [deeds, hcall, count]
    rfl

theorem lastCounters_doings (l : ReceiveLoop) (before calls : Source) :
    lastCounters (l.tally before) (l.doings before calls) = l.tally (before ++ calls) := by
  induction calls generalizing before with
  | nil =>
    rw [List.append_nil]
    rfl
  | cons call rest ih =>
    rw [doings, lastCounters_append, lastCounters_deeds, ih, List.append_assoc]
    rfl

/-! ## The account -/

/-- A run accounts for some calls: it makes each of them, reports each datagram among them in order
and under the number that it came with, publishes the records that can be received, and counts
everything. -/
structure Accounts (l : ReceiveLoop) (calls : Source) (r : Run) : Prop where
  does : r.events.map Prod.snd = l.doings [] calls
  requests : (r.events.map Prod.snd).countP Event.isRequest = calls.length
  reports : (r.events.map Prod.snd).filter Event.isReport = calls.received.map l.report
  publications : r.publications.map Prod.snd = calls.datagrams.filterMap l.publication?
  latest : r.latest = (calls.datagrams.filterMap l.publication?).getLast?
  counters : r.counters = l.tally calls
  ended : r.ended.isSome

theorem accounts_of_events {calls : Source} {r : Run}
    (hevents : r.events.map Prod.snd = l.doings [] calls) (hended : r.ended.isSome) :
    l.Accounts calls r where
  does := hevents
  requests := by
    rw [hevents, countP_isRequest_doings]
  reports := by
    rw [hevents, filter_isReport_doings]
  publications := by
    rw [Run.publications_map_snd, hevents, filterMap_published?_doings]
  latest := by
    rw [Run.latest_eq, hevents, filterMap_published?_doings]
  counters := by
    rw [Run.counters_eq, hevents]
    exact lastCounters_doings l [] calls
  ended := hended

theorem Consumed.countsFrom {source made : Source} {last : Call} {first : Nat}
    (h : l.Consumed source made last) (hcounts : source.CountsFrom first) :
    Source.CountsFrom first (made ++ [last]) := by
  refine Source.CountsFrom.of_isPrefix ?_ h.taken
  have hreceived : Source.received (source ++ [.beyond]) = source.received := by
    rw [Source.received_append]
    exact List.append_nil _
  rw [Source.CountsFrom, Source.datagrams, hreceived]
  exact hcounts

/-- **A loop that is not cancelled makes the calls of its source up to the first that ends it, and
accounts for exactly these**, be it that somebody can receive its records or that nobody can. If the
source counts its datagrams, as scripts, replays and listeners do, the reports bear these numbers
one after another. -/
theorem start_accounts (l : ReceiveLoop) (hcancel : l.cancelAt = none) (source : Source)
    (hanswers : ∀ call ∈ source, call.wait ≠ .forever) :
    ∃ made last, l.Consumed source made last ∧ l.Accounts (made ++ [last]) (l.start source) ∧
      ∀ first, source.CountsFrom first →
        ((l.start source).events.map Prod.snd).filter Event.isReport =
          (RawDatagram.numbered first (Source.datagrams (made ++ [last]))).map l.report := by
  obtain ⟨made, last, hconsumed, hevents, hended⟩ :=
    run_of_agrees hcancel source hanswers l.agrees_start l.goesOn_nil
  have haccounts : l.Accounts (made ++ [last]) (l.start source) :=
    accounts_of_events hevents hended
  refine ⟨made, last, hconsumed, haccounts, fun first hcounts => ?_⟩
  have hnumbered : Source.CountsFrom first (made ++ [last]) := hconsumed.countsFrom hcounts
  rw [haccounts.reports, hnumbered]

/-- A loop that gives up at the second failure in a row. -/
def impatient : ReceiveLoop :=
  ⟨⟨.octet, ⟨⟨0x5e, 0xd5⟩, ⟨0x0d, 0x0a⟩⟩, false⟩, ⟨2, 50⟩, none, true⟩

/-- Failures that are forgotten over a record and over a datagram without one, and then two in a
row. -/
def flaky : Source :=
  .ofSteps [.failure (.ofSystem "down"), .sleep 3, .datagram [0x5e, 0xd5, 7, 0x0d, 0x0a],
    .failure (.ofSystem "down"), .sleep 197, .datagram [0x5e], .failure (.ofSystem "down"),
    .failure (.ofSystem "down"), .datagram [0x5e, 0xd5, 8, 0x0d, 0x0a]]

theorem start_accounts_flaky :
    (∃ made last, impatient.Consumed flaky made last ∧
      impatient.Accounts (made ++ [last]) (impatient.start flaky) ∧
      ((impatient.start flaky).events.map Prod.snd).filter Event.isReport =
        (RawDatagram.numbered 0 (Source.datagrams (made ++ [last]))).map impatient.report) ∧
    (impatient.start flaky).counters = ⟨2, 1, 1, 0, 0, 0, 0, 4⟩ := by
  obtain ⟨made, last, hconsumed, haccounts, hnumbered⟩ :=
    start_accounts impatient rfl flaky (by decide)
  exact ⟨⟨made, last, hconsumed, haccounts, hnumbered 0 (Source.countsFrom_ofSteps _)⟩, by decide⟩

end ReceiveLoop

end Downlink
