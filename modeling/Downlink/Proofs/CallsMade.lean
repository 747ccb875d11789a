import Downlink.ReceiveLoop

/-!
# The calls that a loop makes

A loop keeps a number of failures in a row and its counters. Both are told by the calls that it has
made (`ReceiveLoop.Agrees`), and so are whether the next call ends it (`endsAt`) and what it does
about that call (`deeds`).

So a loop that is not cancelled, whose source answers every call, makes the calls up to the first
that ends it and does about each of them what is due (`run_of_agrees`).
-/

namespace Downlink

/-! ## Calls -/

/-- The call behind the last one of a source. -/
def Call.beyond : Call := ⟨.pause 0, .exhausted⟩

def Call.isFailure (call : Call) : Bool :=
  match call.answer with
  | .failure _ => true
  | _ => false

namespace Source

/-- The failures since the last datagram, or since the start. -/
def trailingFailures (calls : Source) : Nat :=
  (calls.reverse.takeWhile Call.isFailure).length

variable {call : Call}

theorem trailingFailures_concat_of_failure (calls : Source) (h : call.isFailure = true) :
    trailingFailures (calls ++ [call]) = trailingFailures calls + 1 := by
  simp [trailingFailures, h]

theorem trailingFailures_concat_of_not_failure (calls : Source) (h : call.isFailure = false) :
    trailingFailures (calls ++ [call]) = 0 := by
  simp [trailingFailures, h]

end Source

namespace ReceiveLoop

variable {l : ReceiveLoop} {before : Source} {call : Call} {d : RawDatagram} {s : State}

/-! ## What the calls tell -/

/-- Whether a call ends a loop that has made other calls before it: the source has nothing more, or
fails for good, or has failed too often in a row, or gives a record that nobody can receive. -/
def endsAt (l : ReceiveLoop) (before : Source) (call : Call) : Bool :=
  match call.answer with
  | .exhausted => true
  | .failure error =>
    !error.isRetryable || before.trailingFailures + 1 == max l.options.maxTransportErrors 1
  | .datagram d => !l.hasReceiver && (l.decoder.decode d.bytes).isOk

/-- The counters with one more call. -/
def count (l : ReceiveLoop) (counters : Counters) (call : Call) : Counters :=
  match call.answer with
  | .exhausted => counters
  | .failure _ => counters.addTransportError
  | .datagram d =>
    match l.decoder.decode d.bytes with
    | .ok _ => counters.addRecord
    | .error error => counters.addFailure error

/-- The counters after some calls. -/
def tally (l : ReceiveLoop) (calls : Source) : Counters :=
  calls.foldl l.count .zero

@[simp] theorem tally_concat (l : ReceiveLoop) (calls : Source) (call : Call) :
    l.tally (calls ++ [call]) = l.count (l.tally calls) call := by
  simp [tally]

/-- The report of a datagram. -/
def report (l : ReceiveLoop) (d : RawDatagram) : Event :=
  match l.decoder.decode d.bytes with
  | .ok record => .accepted d record
  | .error error => .rejected d error

/-- The record of a datagram if it is published. -/
def publication? (l : ReceiveLoop) (bytes : Bytes) : Option Record :=
  if l.hasReceiver then (l.decoder.decode bytes).toOption else none

/-- What a loop does about a call, the calls before it being known. -/
def deeds (l : ReceiveLoop) (before : Source) (call : Call) : List Event :=
  .requested ::
    match call.answer with
    | .exhausted => []
    | .failure _ => [.counted (l.tally (before ++ [call]))]
    | .datagram d =>
      [.counted (l.tally (before ++ [call])), l.report d] ++
        (l.publication? d.bytes).toList.map .published

/-- What a loop does about calls, one after another. -/
def doings (l : ReceiveLoop) (before : Source) : Source → List Event
  | [] => []
  | call :: rest => l.deeds before call ++ l.doings (before ++ [call]) rest

/-- A loop that has made some calls is in a state that they explain. -/
structure Agrees (l : ReceiveLoop) (before : Source) (s : State) : Prop where
  failures : s.failures = before.trailingFailures
  patient : s.failures < max l.options.maxTransportErrors 1
  counters : s.counters = l.tally before

theorem agrees_start (l : ReceiveLoop) : l.Agrees [] .start where
  failures := rfl
  patient := by
    show 0 < max l.options.maxTransportErrors 1
    omega
  counters := rfl

/-! ## Steps -/

/-- A loop goes on or stops as the calls before and the present one tell. -/
def Leads (l : ReceiveLoop) (before : Source) (call : Call) : Next → Prop
  | .go t => l.endsAt before call = false ∧ l.Agrees (before ++ [call]) t
  | .stop ended => l.endsAt before call = true ∧ ended.isSome

/-- Whatever a datagram holds, the loop that goes on has counted it and forgotten the failures. -/
theorem agrees_after_datagram (hcall : call.answer = .datagram d) (now : Nat) :
    l.Agrees (before ++ [call]) ⟨now, 0, l.tally (before ++ [call])⟩ where
  failures := by
    have hfailure : call.isFailure = false := by
      simp [Call.isFailure, hcall]
    exact (Source.trailingFailures_concat_of_not_failure before hfailure).symm
  patient := by
    show 0 < max l.options.maxTransportErrors 1
    omega
  counters := rfl

theorem receive_of_agrees (hs : l.Agrees before s) (hcall : call.answer = .datagram d)
    (now : Nat) :
    ∃ events next, l.receive { s with now } d = (events, next) ∧
      Event.requested :: events.map Prod.snd = l.deeds before call ∧ l.Leads before call next := by
  have hagrees : l.Agrees (before ++ [call]) ⟨now, 0, l.tally (before ++ [call])⟩ :=
    agrees_after_datagram hcall now
  have htally : l.tally (before ++ [call]) = l.count s.counters call := by
    rw [tally_concat, hs.counters]
  cases hdecode : l.decoder.decode d.bytes with
  | error error =>
    have hcounters : s.counters.addFailure error = l.tally (before ++ [call]) := by
      simp [htally, count, hcall, hdecode]
    have hends : l.endsAt before call = false := by
      simp [endsAt, hcall, hdecode, Except.isOk, Except.toBool]
    have hreceive : l.receive { s with now } d =
        ([(now, .counted (l.tally (before ++ [call]))), (now, .rejected d error)],
          .go ⟨now, 0, l.tally (before ++ [call])⟩) := by
      simp only [receive, hdecode, hcounters]
    refine ⟨_, _, hreceive, ?_, hends, hagrees⟩
    simp [deeds, hcall, report, publication?, hdecode, Except.toOption]
  | ok record =>
    have hcounters : s.counters.addRecord = l.tally (before ++ [call]) := by
      simp [htally, count, hcall, hdecode]
    cases hreceiver : l.hasReceiver with
    | true =>
      have hends : l.endsAt before call = false := by
        simp [endsAt, hcall, hreceiver]
      have hreceive : l.receive { s with now } d =
          ([(now, .counted (l.tally (before ++ [call]))), (now, .accepted d record),
            (now, .published record)], .go ⟨now, 0, l.tally (before ++ [call])⟩) := by
        simp [receive, hdecode, hcounters, hreceiver]
      refine ⟨_, _, hreceive, ?_, hends, hagrees⟩
      simp [deeds, hcall, report, publication?, hdecode, hreceiver, Except.toOption]
    | false =>
      have hends : l.endsAt before call = true := by
        simp [endsAt, hcall, hreceiver, hdecode, Except.isOk, Except.toBool]
      have hreceive : l.receive { s with now } d =
          ([(now, .counted (l.tally (before ++ [call]))), (now, .accepted d record)],
            .stop (some now)) := by
        simp [receive, hdecode, hcounters, hreceiver]
      refine ⟨_, _, hreceive, ?_, hends, rfl⟩
      simp [deeds, hcall, report, publication?, hdecode, hreceiver]

/-- A loop that has not given up before gives up when its failures reach the bound. -/
theorem givesUp_eq_endsAt {error : LinkError} (hs : l.Agrees before s)
    (hcall : call.answer = .failure error) :
    l.givesUp error (s.failures + 1) = l.endsAt before call := by
  have hpatient := hs.patient
  have hbound : decide (l.options.maxTransportErrors ≤ s.failures + 1) =
      (before.trailingFailures + 1 == max l.options.maxTransportErrors 1) := by
    rw [← hs.failures, Bool.eq_iff_iff, decide_eq_true_iff, beq_iff_eq]
    omega
  simp only [givesUp, endsAt, hcall, hbound]

theorem agrees_after_failure {error : LinkError} (hs : l.Agrees before s)
    (hcall : call.answer = .failure error) (hgives : l.givesUp error (s.failures + 1) = false)
    (now : Nat) :
    l.Agrees (before ++ [call])
      ⟨now, s.failures + 1, s.counters.addTransportError⟩ where
  failures := by
    rw [Source.trailingFailures_concat_of_failure before (by simp [Call.isFailure, hcall]),
      ← hs.failures]
  patient := by
    have hpatient := hs.patient
    simp only [givesUp, Bool.or_eq_false_iff, decide_eq_false_iff_not] at hgives
    show s.failures + 1 < max l.options.maxTransportErrors 1
    omega
  counters := by
    simp [tally_concat, count, hcall, hs.counters]

theorem deeds_of_failure {error : LinkError} (hs : l.Agrees before s)
    (hcall : call.answer = .failure error) :
    l.deeds before call = [.requested, .counted s.counters.addTransportError] := by
  simp [deeds, hcall, tally_concat, count, hs.counters]

theorem recover_of_agrees {error : LinkError} (hcancel : l.cancelAt = none)
    (hs : l.Agrees before s) (hcall : call.answer = .failure error) (now : Nat) :
    ∃ events next, l.recover { s with now } error = (events, next) ∧
      Event.requested :: events.map Prod.snd = l.deeds before call ∧ l.Leads before call next := by
  have hgives := givesUp_eq_endsAt hs hcall
  have hdeeds : Event.requested :: [(now, Event.counted s.counters.addTransportError)].map Prod.snd =
      l.deeds before call := (deeds_of_failure hs hcall).symm
  cases hends : l.endsAt before call with
  | true =>
    rw [hends] at hgives
    exact ⟨_, .stop (some now), by simp [recover, hgives], hdeeds, hends, rfl⟩
  | false =>
    rw [hends] at hgives
    have hrecover : l.recover { s with now } error =
        ([(now, .counted s.counters.addTransportError)],
          .go ⟨now + l.options.backoff (s.failures + 1), s.failures + 1,
            s.counters.addTransportError⟩) := by
      simp [recover, hgives, waitUntil, hcancel]
    exact ⟨_, _, hrecover, hdeeds, hends, agrees_after_failure hs hcall hgives _⟩

/-- **One step: what it does and whether it is the last is told by the calls so far.** -/
theorem step_of_agrees (hcancel : l.cancelAt = none) (hs : l.Agrees before s)
    (hwait : call.wait ≠ .forever) :
    ∃ events next, l.step s call = (events, next) ∧
      events.map Prod.snd = l.deeds before call ∧ l.Leads before call next := by
  obtain ⟨now, hnow⟩ : ∃ now, l.waitUntil (call.wait.end? s.now) = .over now := by
    cases hend : call.wait with
    | pause milliseconds => exact ⟨s.now + milliseconds, by simp [Wait.end?, waitUntil, hcancel]⟩
    | due moment => exact ⟨max s.now moment, by simp [Wait.end?, waitUntil, hcancel]⟩
    | forever => exact absurd hend hwait
  cases hcall : call.answer with
  | exhausted =>
    have hends : l.endsAt before call = true := by
      simp [endsAt, hcall]
    have hdeeds : [(s.now, Event.requested)].map Prod.snd = l.deeds before call := by
      simp [deeds, hcall]
    exact ⟨_, .stop (some now), by simp only [step, hnow, hcall], hdeeds, hends, rfl⟩
  | datagram d =>
    obtain ⟨events, next, hreceive, hevents, hleads⟩ := receive_of_agrees hs hcall now
    refine ⟨(s.now, .requested) :: events, next, ?_, hevents, hleads⟩
    simp only [step, hnow, hcall, hreceive]
  | failure error =>
    obtain ⟨events, next, hrecover, hevents, hleads⟩ := recover_of_agrees hcancel hs hcall now
    refine ⟨(s.now, .requested) :: events, next, ?_, hevents, hleads⟩
    simp only [step, hnow, hcall, hrecover]

/-! ## Runs -/

/-- None of some calls ends a loop. -/
def GoesOn (l : ReceiveLoop) (calls : Source) : Prop :=
  ∀ earlier call, earlier ++ [call] <+: calls → l.endsAt earlier call = false

theorem goesOn_nil (l : ReceiveLoop) : l.GoesOn [] := by
  intro earlier call hcalls
  simp at hcalls

theorem GoesOn.concat (h : l.GoesOn before) (hcall : l.endsAt before call = false) :
    l.GoesOn (before ++ [call]) := by
  intro earlier call' hprefix
  rcases List.prefix_concat_iff.1 hprefix with heq | hearlier
  · obtain ⟨rfl, rfl⟩ := List.append_singleton_inj.1 heq
    exact hcall
  · exact h earlier call' hearlier

/-- The calls that a loop must make to a source: all up to the first that ends it. -/
structure Consumed (l : ReceiveLoop) (source made : Source) (last : Call) : Prop where
  taken : made ++ [last] <+: source ++ [.beyond]
  goesOn : l.GoesOn made
  ends : l.endsAt made last = true

theorem run_of_agrees (hcancel : l.cancelAt = none) (source : Source)
    (hanswers : ∀ call ∈ source, call.wait ≠ .forever) (hs : l.Agrees before s)
    (hbefore : l.GoesOn before) :
    ∃ made last, l.Consumed (before ++ source) (before ++ made) last ∧
      (l.run s source).events.map Prod.snd = l.doings before (made ++ [last]) ∧
      (l.run s source).ended.isSome := by
  -- Along the source; the calls made so far move from it to those before.
  induction source generalizing before s with
  | nil =>
    refine ⟨[], .beyond, ⟨?_, ?_, rfl⟩, ?_, rfl⟩
    · simp
    · rw [List.append_nil]
      exact hbefore
    · simp [run, doings, deeds, Call.beyond]
  | cons call rest ih =>
    obtain ⟨events, next, hstep, hevents, hleads⟩ :=
      step_of_agrees hcancel hs (hanswers call List.mem_cons_self)
    cases next with
    | stop ended =>
      obtain ⟨hends, hended⟩ := hleads
      rw [run_cons_stop hstep]
      refine ⟨[], call, ⟨?_, ?_, ?_⟩, ?_, hended⟩
      · simp
      · rw [List.append_nil]
        exact hbefore
      · rw [List.append_nil]
        exact hends
      · simp [doings, hevents]
    | go t =>
      obtain ⟨hends, ht⟩ := hleads
      obtain ⟨made, last, hconsumed, hdoings, hended⟩ :=
        ih (fun later hlater => hanswers later (List.mem_cons_of_mem _ hlater)) ht
          (hbefore.concat hends)
      rw [run_cons_go hstep]
      refine ⟨call :: made, last, ?_, ?_, hended⟩
      · simpa using hconsumed
      · simp [Run.after, hevents, hdoings, doings]

end ReceiveLoop

end Downlink
