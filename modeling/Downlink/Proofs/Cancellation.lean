import Downlink.Proofs.LoopAccount
import Downlink.Proofs.SubscriberTimeline

/-!
# Cancelling a loop

A loop that is cancelled does what it would have done anyway, up to the time when it is cancelled,
and nothing more. It is only in its waits that it can tell: if a wait would be over later, the loop
ends in it, and whatever the wait was for is left alone. So the run of a cancelled loop is the run
of the same loop, cut at that time (`ReceiveLoop.run_cancelledAt`).
-/

namespace Downlink

namespace ReceiveLoop

variable {l : ReceiveLoop} {s : State} {time start now : Nat} {events : List TimedEvent}
  {next : Next}

/-- The same loop, cancelled at a time. -/
def cancelledAt (l : ReceiveLoop) (time : Nat) : ReceiveLoop :=
  { l with cancelAt := some time }

/-- A run up to a time, at which it ends if it has not ended before. -/
def Run.cutAt (r : Run) (time : Nat) : Run :=
  if r.isRunningAt time then ⟨r.events.filter (·.1 ≤ time), some time⟩ else r

/-! ## Steps -/

/-- Whether what comes next comes later than a time. -/
def Next.isBeyond (time : Nat) : Next → Bool
  | .go t => time < t.now
  | .stop ended => ended.all (time < ·)

/-- A step up to a time, at which it ends the loop if it would reach beyond. -/
def cutStep (time : Nat) (events : List TimedEvent) (next : Next) : List TimedEvent × Next :=
  if next.isBeyond time then (events.filter (·.1 ≤ time), .stop (some time)) else (events, next)

theorem cutStep_cons (hle : start ≤ time) (event : Event) :
    cutStep time ((start, event) :: events) next =
      ((start, event) :: (cutStep time events next).1, (cutStep time events next).2) := by
  unfold cutStep
  cases next.isBeyond time with
  | false => rfl
  | true => simp [hle]

theorem cutStep_stop {ended : Option Nat} :
    cutStep time events (.stop ended) =
      ((Run.cutAt ⟨events, ended⟩ time).events, .stop (Run.cutAt ⟨events, ended⟩ time).ended) := by
  have hrunning : Run.isRunningAt ⟨events, ended⟩ time = (Next.stop ended).isBeyond time := rfl
  unfold cutStep Run.cutAt
  rw [hrunning]
  cases (Next.stop ended).isBeyond time <;> rfl

theorem filter_le_eq_nil (hlt : time < start) (h : ∀ e ∈ events, start ≤ e.1) :
    events.filter (·.1 ≤ time) = [] := by
  rw [List.filter_eq_nil_iff]
  intro e he
  have hstart := h e he
  simp only [decide_eq_true_eq]
  omega

theorem filter_le_eq_self (hle : now ≤ time) (h : ∀ e ∈ events, e.1 ≤ now) :
    events.filter (·.1 ≤ time) = events := by
  rw [List.filter_eq_self]
  intro e he
  exact decide_eq_true (Nat.le_trans (h e he) hle)

theorem Timely.all_lt {stop : Option Nat} (h : Timely start events stop) (hlt : time < start) :
    stop.all (time < ·) = true := by
  cases stop with
  | none => rfl
  | some later => exact decide_eq_true (Nat.lt_of_lt_of_le hlt (h.le_stop later rfl).1)

theorem Follows.cutStep_eq (h : l.Follows start events next) (hlt : time < start) :
    cutStep time events next = ([], .stop (some time)) := by
  cases next with
  | go t =>
    have hbeyond : (Next.go t).isBeyond time = true := h.1.all_lt hlt
    rw [cutStep, if_pos hbeyond, filter_le_eq_nil hlt h.1.start_le]
  | stop ended =>
    have hbeyond : (Next.stop ended).isBeyond time = true := h.all_lt hlt
    rw [cutStep, if_pos hbeyond, filter_le_eq_nil hlt h.start_le]

theorem waitUntil_of_cancelAt_eq_none (hl : l.cancelAt = none) (time : Nat) :
    l.waitUntil (some time) = .over time := by
  simp only [waitUntil, hl]

theorem receive_cancelledAt (hs : s.now ≤ time) (d : RawDatagram) :
    (l.cancelledAt time).receive s d = cutStep time (l.receive s d).1 (l.receive s d).2 := by
  have hnot : (l.receive s d).2.isBeyond time = false := by
    unfold receive
    cases l.decoder.decode d.bytes with
    | error error => simpa [Next.isBeyond] using hs
    | ok record => cases l.hasReceiver <;> simpa [Next.isBeyond] using hs
  rw [cutStep, hnot]
  rfl

theorem recover_cancelledAt (hl : l.cancelAt = none) (hs : s.now ≤ time) (error : LinkError) :
    (l.cancelledAt time).recover s error =
      cutStep time (l.recover s error).1 (l.recover s error).2 := by
  have hgives : (l.cancelledAt time).givesUp = l.givesUp := rfl
  have hbackoff : (l.cancelledAt time).options = l.options := rfl
  simp only [recover, hgives, hbackoff, waitUntil_of_cancelAt_eq_none hl]
  cases l.givesUp error (s.failures + 1) with
  | true => simp [cutStep, Next.isBeyond, Nat.not_lt.2 hs]
  | false =>
    by_cases hlt : time < s.now + l.options.backoff (s.failures + 1)
    · simp [cutStep, Next.isBeyond, waitUntil, cancelledAt, hlt, hs]
    · simp [cutStep, Next.isBeyond, waitUntil, cancelledAt, hlt]

/-- **A step of a cancelled loop is the same step, cut.** -/
theorem step_cancelledAt (hl : l.cancelAt = none) (hs : s.now ≤ time) (call : Call) :
    (l.cancelledAt time).step s call = cutStep time (l.step s call).1 (l.step s call).2 := by
  have hnot : ∀ now, l.NotYetCancelled now := by simp [NotYetCancelled, hl]
  cases hend : call.wait.end? s.now with
  | none => simp [step, hend, waitUntil, hl, cancelledAt, cutStep, Next.isBeyond, hs]
  | some now =>
    simp only [step, hend, waitUntil_of_cancelAt_eq_none hl]
    by_cases hlt : time < now
    · -- The wait is cut, and with it everything that would have been done behind it.
      have hcut : ∀ {events next}, l.Follows now events next →
          cutStep time ((s.now, .requested) :: events) next =
            ([(s.now, .requested)], .stop (some time)) := by
        intro events next h
        rw [cutStep_cons hs, h.cutStep_eq hlt]
      have hwait : (l.cancelledAt time).waitUntil (some now) = .cancelled time := if_pos hlt
      simp only [hwait]
      cases call.answer with
      | exhausted =>
        have hnothing : l.Follows now [] (.stop (some now)) := timely_of_now (by simp) (by simp)
        exact (hcut hnothing).symm
      | datagram d => exact (hcut (follows_receive (hnot now) d)).symm
      | failure error => exact (hcut (follows_recover (hnot now) error)).symm
    · have hwait : (l.cancelledAt time).waitUntil (some now) = .over now := if_neg hlt
      have hle : now ≤ time := Nat.not_lt.1 hlt
      simp only [hwait]
      cases call.answer with
      | exhausted => simp [cutStep, Next.isBeyond, hlt]
      | datagram d =>
        simp only [receive_cancelledAt (s := { s with now }) hle, cutStep_cons hs]
      | failure error =>
        simp only [recover_cancelledAt (s := { s with now }) hl hle, cutStep_cons hs]

/-! ## Runs -/

theorem Run.cutAt_after (hle : now ≤ time) (h : ∀ e ∈ events, e.1 ≤ now) (r : Run) :
    (r.after events).cutAt time = (r.cutAt time).after events := by
  have hrunning : (r.after events).isRunningAt time = r.isRunningAt time := rfl
  unfold cutAt
  rw [hrunning]
  cases r.isRunningAt time with
  | false => rfl
  | true => simp [after, List.filter_append, filter_le_eq_self hle h]

theorem Run.cutAt_after_of_lt (hlt : time < start) {r : Run} (h : Timely start r.events r.ended) :
    (r.after events).cutAt time = ⟨events.filter (·.1 ≤ time), some time⟩ := by
  have hrunning : (r.after events).isRunningAt time = true := h.all_lt hlt
  rw [cutAt, if_pos hrunning]
  simp [after, List.filter_append, filter_le_eq_nil hlt h.start_le]

/-- **The run of a cancelled loop is the run of the loop, cut.** -/
theorem run_cancelledAt (hl : l.cancelAt = none) (hs : s.now ≤ time) (source : Source) :
    (l.cancelledAt time).run s source = (l.run s source).cutAt time := by
  induction source generalizing s with
  | nil => simp [run, Run.cutAt, Run.isRunningAt, Nat.not_lt.2 hs]
  | cons call rest ih =>
    have hnot : ∀ now, l.NotYetCancelled now := by simp [NotYetCancelled, hl]
    have hfollows := follows_step (hnot s.now) call
    have hcut := step_cancelledAt hl hs call
    rcases hstep : l.step s call with ⟨events, next⟩
    rw [hstep] at hfollows hcut
    cases next with
    | stop ended =>
      rw [run_cons_stop hstep]
      exact run_cons_stop (hcut.trans cutStep_stop) rest
    | go t =>
      rw [run_cons_go hstep]
      by_cases hlt : time < t.now
      · have hbeyond : (Next.go t).isBeyond time = true := decide_eq_true hlt
        rw [cutStep, if_pos hbeyond] at hcut
        rw [run_cons_stop hcut, Run.cutAt_after_of_lt hlt (timely_run (hnot t.now) rest)]
      · have hbeyond : (Next.go t).isBeyond time = false := decide_eq_false hlt
        have hle : t.now ≤ time := Nat.not_lt.1 hlt
        rw [cutStep, hbeyond] at hcut
        rw [run_cons_go hcut, ih hle, Run.cutAt_after hle (hfollows.1.le_stop t.now rfl).2]

/-! ## What was done before -/

theorem filterMap_filter_le {α : Type} {f : TimedEvent → Option (Nat × α)}
    (hf : ∀ e p, f e = some p → p.1 = e.1) (time : Nat) (events : List TimedEvent) :
    (events.filter (·.1 ≤ time)).filterMap f = (events.filterMap f).filter (·.1 ≤ time) := by
  rw [List.filterMap_filter, List.filter_filterMap]
  congr 1
  funext e
  cases hp : f e with
  | none => simp
  | some p => simp [Option.filter_some, hf e p hp]

namespace Run

variable {r : Run}

theorem counters_cutAt (h : r.isRunningAt time = true) :
    (r.cutAt time).counters = r.countersAt time := by
  have hcounts : (r.cutAt time).counts = r.counts.filter (·.1 ≤ time) := by
    rw [cutAt, if_pos h]
    refine filterMap_filter_le ?_ time r.events
    rintro ⟨t, event⟩ p hp
    cases event <;> simp at hp
    simp [← hp]
  rw [counters, hcounts]
  rfl

theorem latest_cutAt (h : r.isRunningAt time = true) :
    (r.cutAt time).latest = r.latestAt time := by
  have hpublications : (r.cutAt time).publications = r.publications.filter (·.1 ≤ time) := by
    rw [cutAt, if_pos h]
    refine filterMap_filter_le ?_ time r.events
    rintro ⟨t, event⟩ p hp
    cases event <;> simp at hp
    simp [← hp]
  rw [latest, hpublications]
  rfl

end Run

/-- A run that is cut off from the whole of it: what was done before a time, and then the end. -/
structure Run.CutOff (whole r : Run) (time : Nat) : Prop where
  events_eq : r.events = whole.events.filter (·.1 < time)
  events_isPrefix : r.events <+: whole.events
  ended_eq : r.ended = some time
  counters_eq : r.counters = whole.countersAt time
  latest_eq : r.latest = whole.latestAt time

/-- **A loop that is cancelled in a wait has done exactly what it would have done before**, and ends
there. If it would have ended before, nothing changes.

While the loop runs, every wait of it is over at the time of an event, and its first event is at the
start: a time of no event is the time of no timer, either, and not the start. -/
theorem start_cancelledAt (l : ReceiveLoop) (hl : l.cancelAt = none) (source : Source) (time : Nat)
    (hc : ∀ e ∈ (l.start source).events, e.1 ≠ time) :
    ((l.start source).isRunningAt time = true →
      (l.start source).CutOff ((l.cancelledAt time).start source) time) ∧
    ((l.start source).isRunningAt time = false →
      (l.cancelledAt time).start source = l.start source) := by
  have hcut : (l.cancelledAt time).start source = (l.start source).cutAt time :=
    run_cancelledAt hl (Nat.zero_le time) source
  rw [hcut]
  constructor
  · intro hrunning
    have hevents :
        ((l.start source).cutAt time).events = (l.start source).events.filter (·.1 ≤ time) := by
      rw [Run.cutAt, if_pos hrunning]
    refine ⟨?_, ?_, ?_, Run.counters_cutAt hrunning, Run.latest_cutAt hrunning⟩
    · rw [hevents]
      apply List.filter_congr
      intro e he
      have hne := hc e he
      simp only [decide_eq_decide]
      omega
    · rw [hevents]
      exact Connection.filter_le_isPrefix (timely_start l source).sorted time
    · rw [Run.cutAt, if_pos hrunning]
  · intro hended
    rw [Run.cutAt, if_neg (by simp [hended])]

/-- In the wait after the second failure, which the record before it has made the first in a row. -/
theorem start_cancelledAt_flaky :
    (∀ e ∈ (impatient.start flaky).events, e.1 ≠ 150) ∧
    (impatient.start flaky).CutOff ((impatient.cancelledAt 150).start flaky) 150 ∧
    ((impatient.cancelledAt 150).start flaky).counters = ⟨1, 1, 0, 0, 0, 0, 0, 2⟩ ∧
    ((impatient.cancelledAt 900).start flaky) = impatient.start flaky := by
  have hc : ∀ e ∈ (impatient.start flaky).events, e.1 ≠ 150 := by decide
  refine ⟨hc, (start_cancelledAt impatient rfl flaky 150 hc).1 (by decide), by decide, ?_⟩
  exact (start_cancelledAt impatient rfl flaky 900 (by decide)).2 (by decide)

end ReceiveLoop

end Downlink
