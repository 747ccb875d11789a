import Downlink.Watch
import Downlink.Proofs.LoopAccount
import Downlink.Proofs.Tally

/-!
# Counters seen while a loop is at work

The counters may be looked at whenever one likes: while the source is asked, between two things that
the loop does about one answer, while it is being cancelled, and behind its end. So the loop is taken
apart here into single actions, which come in any order with those of the onlookers
(`LoopAtWork.step`).

A datagram is counted in one go, so whatever the moment, the counters tell of all calls that the
source has answered, or of all but the last of them (`Deals`). What is seen is therefore true
(`Deals.tells`), and what is seen later is nowhere lower. Every action keeps this (`Coherent.step`).
-/

namespace Downlink

namespace ReceiveLoop

variable {l : ReceiveLoop} {s t : State} {call : Call}

/-! ## Answers -/

/-- What a loop does about an answer that has come. -/
def deal (l : ReceiveLoop) (s : State) : Answer → List TimedEvent × Next
  | .datagram d => l.receive s d
  | .failure error => l.recover s error
  | .exhausted => ([], .stop (some s.now))

theorem step_of_over {now : Nat} (h : l.waitUntil (call.wait.end? s.now) = .over now) :
    l.step s call = ((s.now, .requested) :: (l.deal { s with now } call.answer).1,
      (l.deal { s with now } call.answer).2) := by
  rw [step, h]
  cases call.answer <;> rfl

/-- The counters that events put forth. -/
def countsOf (events : List TimedEvent) : List Counters :=
  events.filterMap fun e => e.2.counters?

theorem countsOf_cons (e : TimedEvent) (rest : List TimedEvent) :
    countsOf (e :: rest) = e.2.counters?.toList ++ countsOf rest := by
  cases h : e.2.counters? with
  | none => exact List.filterMap_cons_none h
  | some counters => exact List.filterMap_cons_some h

theorem countsOf_deal (l : ReceiveLoop) (s : State) (call : Call) :
    countsOf (l.deal s call.answer).1 = [l.count s.counters call] ∨
      countsOf (l.deal s call.answer).1 = [] ∧ l.count s.counters call = s.counters := by
  cases hcall : call.answer with
  | exhausted => exact .inr ⟨rfl, by simp only [count, hcall]⟩
  | datagram d =>
    left
    simp only [deal, receive, count, hcall]
    cases l.decoder.decode d.bytes with
    | error error => rfl
    | ok record => cases l.hasReceiver <;> rfl
  | failure error =>
    left
    simp only [deal, recover, count, hcall]
    cases l.givesUp error (s.failures + 1) with
    | true => rfl
    | false => cases l.waitUntil (some (s.now + l.options.backoff (s.failures + 1))) <;> rfl

theorem counters_of_deal (h : (l.deal s call.answer).2 = .go t) :
    t.counters = l.count s.counters call := by
  cases hcall : call.answer with
  | exhausted =>
    rw [hcall] at h
    cases h
  | datagram d =>
    simp only [deal, receive, hcall] at h
    simp only [count, hcall]
    cases hdecode : l.decoder.decode d.bytes with
    | error error =>
      simp only [hdecode] at h
      cases h
      rfl
    | ok record =>
      cases hreceiver : l.hasReceiver with
      | true =>
        simp only [hdecode, hreceiver] at h
        cases h
        rfl
      | false => simp [hdecode, hreceiver] at h
  | failure error =>
    simp only [deal, recover, hcall] at h
    simp only [count, hcall]
    cases hgives : l.givesUp error (s.failures + 1) with
    | true => simp [hgives] at h
    | false =>
      cases hwait : l.waitUntil (some (s.now + l.options.backoff (s.failures + 1)))
      · simp only [hgives, hwait] at h
        cases h
        rfl
      · simp [hgives, hwait] at h
      · simp [hgives, hwait] at h

end ReceiveLoop

open ReceiveLoop

/-! ## The system -/

/-- What somebody finds who looks at the counters. -/
structure Sighting where
  counters : Counters
  /-- The calls that the source had answered. -/
  answered : Source
  hasEnded : Bool

structure LoopAtWork where
  decoder : Decoder
  options : LoopOptions
  hasReceiver : Bool
  isCancelled : Bool
  /-- What follows when everything about the last answer is done. -/
  next : Next
  /-- What is still to be done about the last answer. -/
  todo : List TimedEvent
  answered : Source
  counters : Watch Counters
  sightings : List Sighting

namespace LoopAtWork

/-- What may happen, in any order. -/
inductive Action
  /-- The source answers a call, at a time. -/
  | answer (now : Nat) (call : Call)
  /-- The loop does the next thing about an answer. -/
  | work
  | cancel
  /-- The loop, which waits, notices that it is cancelled. -/
  | stop
  /-- The last receiver of records goes. -/
  | leave
  /-- Somebody looks at the counters. -/
  | look

def start (decoder : Decoder) (options : LoopOptions) (hasReceiver : Bool) : LoopAtWork :=
  ⟨decoder, options, hasReceiver, false, .go .start, [], [], .new .zero, []⟩

/-- The loop as far as nothing comes in between. -/
def loop (w : LoopAtWork) : ReceiveLoop :=
  ⟨w.decoder, w.options, none, true⟩

def hasEnded (w : LoopAtWork) : Bool :=
  match w.todo, w.next with
  | [], .stop _ => true
  | _, _ => false

/-- What somebody finds who looks now. -/
def sighting (w : LoopAtWork) : Sighting :=
  ⟨w.counters.value, w.answered, w.hasEnded⟩

def step (w : LoopAtWork) : Action → LoopAtWork
  | .answer now call =>
    match w.todo, w.next with
    | [], .go s =>
      let (todo, next) := w.loop.deal { s with now } call.answer
      { w with todo, next, answered := w.answered ++ [call] }
    | _, _ => w
  | .work =>
    match w.todo with
    | [] => w
    | (_, .counted counters) :: todo => { w with todo, counters := w.counters.send counters }
    | (now, .published _) :: todo =>
      { w with todo, next := if w.hasReceiver then w.next else .stop (some now) }
    | _ :: todo => { w with todo }
  | .cancel => { w with isCancelled := true }
  | .stop =>
    match w.todo, w.next with
    | [], .go s => if w.isCancelled then { w with next := .stop (some s.now) } else w
    | _, _ => w
  | .leave => { w with hasReceiver := false }
  | .look => { w with sightings := w.sightings ++ [w.sighting] }

def run (w : LoopAtWork) (actions : List Action) : LoopAtWork :=
  actions.foldl step w

end LoopAtWork

/-! ## What is seen -/

/-- A sighting tells of some calls: of all that were answered, or of all but the last one. -/
structure Sighting.Tells (d : Decoder) (x : Sighting) (dealt : Source) : Prop where
  isPrefix : dealt <+: x.answered
  length_le : x.answered.length ≤ dealt.length + 1
  eq_of_ended : x.hasEnded = true → dealt = x.answered
  datagrams : x.answered.datagrams.take x.counters.datagrams = dealt.datagrams
  tells : x.counters.Tells d dealt.datagrams (dealt.countP Call.isFailure)
  otherFieldErrors : x.counters.otherFieldErrors = 0
  trailingBits : d.exact = false → x.counters.trailingBits = 0

/-- A sighting is followed by another one, of at least as many calls and nowhere lower. -/
structure Sighting.Precedes (x later : Sighting) : Prop where
  answered : x.answered <+: later.answered
  atMost : x.counters.AtMost later.counters

namespace LoopAtWork

variable {w v : LoopAtWork} {dealt : Source}

/-- The counters tell of some calls, and what is still to be counted, if anything, is the call behind
them. -/
structure Deals (w : LoopAtWork) (dealt : Source) : Prop where
  value : w.counters.value = w.loop.tally dealt
  pending : countsOf w.todo = [] ∧ dealt = w.answered ∨
    countsOf w.todo = [w.loop.tally w.answered] ∧ ∃ call, w.answered = dealt ++ [call]

theorem Deals.eq_of_todo (h : w.Deals dealt) (htodo : w.todo = []) : dealt = w.answered := by
  rcases h.pending with ⟨-, heq⟩ | ⟨hcounts, -⟩
  · exact heq
  · rw [htodo] at hcounts
    cases hcounts

theorem Deals.isPrefix (h : w.Deals dealt) : dealt <+: w.answered := by
  rcases h.pending with ⟨-, rfl⟩ | ⟨-, call, hcall⟩
  · exact List.prefix_refl _
  · rw [hcall]
    exact List.prefix_append _ _

theorem Deals.tells (h : w.Deals dealt) : w.sighting.Tells w.decoder dealt := by
  have htells : w.counters.value.Tells w.decoder dealt.datagrams (dealt.countP Call.isFailure) := by
    rw [h.value]
    exact tells_tally w.loop dealt
  have hdatagrams : dealt.datagrams <+: w.answered.datagrams :=
    Source.datagrams_isPrefix h.isPrefix
  refine ⟨h.isPrefix, ?_, ?_, ?_, htells, htells.otherFieldErrors_eq_zero,
    htells.trailingBits_eq_zero⟩
  · rcases h.pending with ⟨-, rfl⟩ | ⟨-, call, hcall⟩
    · exact Nat.le_succ _
    · have hlength : w.answered.length = dealt.length + 1 := by
        rw [hcall, List.length_append, List.length_singleton]
      exact Nat.le_of_eq hlength
  · intro hended
    apply h.eq_of_todo
    cases htodo : w.todo with
    | nil => rfl
    | cons e rest => simp [sighting, hasEnded, htodo] at hended
  · show w.answered.datagrams.take w.counters.value.datagrams = dealt.datagrams
    rw [htells.datagrams]
    exact (List.prefix_iff_eq_take.1 hdatagrams).symm

/-- What every action keeps. -/
structure Coherent (w : LoopAtWork) : Prop where
  counters : ∀ s, w.next = .go s → s.counters = w.loop.tally w.answered
  deals : ∃ dealt, w.Deals dealt
  seen : ∀ x ∈ w.sightings, ∃ dealt, x.Tells w.decoder dealt
  past : ∀ x ∈ w.sightings, x.Precedes w.sighting
  sorted : w.sightings.Pairwise Sighting.Precedes

theorem coherent_start (decoder : Decoder) (options : LoopOptions) (hasReceiver : Bool) :
    (start decoder options hasReceiver).Coherent where
  counters := by
    rintro s ⟨⟩
    rfl
  deals := ⟨[], rfl, .inl ⟨rfl, rfl⟩⟩
  seen := List.forall_mem_nil _
  past := List.forall_mem_nil _
  sorted := .nil

theorem Coherent.keep (h : w.Coherent) (hloop : v.loop = w.loop) (hanswered : v.answered = w.answered)
    (hcounters : v.counters = w.counters) (hsightings : v.sightings = w.sightings)
    (hcounts : countsOf v.todo = countsOf w.todo)
    (hnext : v.next = w.next ∨ ∃ ended, v.next = .stop ended) : v.Coherent where
  counters := by
    intro s hs
    rcases hnext with hsame | ⟨ended, hstop⟩
    · rw [hloop, hanswered]
      exact h.counters s (hsame.symm.trans hs)
    · rw [hstop] at hs
      cases hs
  deals := by
    obtain ⟨dealt, hvalue, hpending⟩ := h.deals
    refine ⟨dealt, ?_, ?_⟩
    · rw [hcounters, hloop, hvalue]
    · rw [hcounts, hanswered, hloop]
      exact hpending
  seen := by
    have hdecoder : v.decoder = w.decoder := congrArg ReceiveLoop.decoder hloop
    rw [hsightings, hdecoder]
    exact h.seen
  past := by
    intro x hx
    rw [hsightings] at hx
    obtain ⟨hbefore, hatMost⟩ := h.past x hx
    refine ⟨?_, ?_⟩
    · rw [sighting, hanswered]
      exact hbefore
    · rw [sighting, hcounters]
      exact hatMost
  sorted := by
    rw [hsightings]
    exact h.sorted

/-! ## Actions -/

theorem decoder_step (w : LoopAtWork) (action : Action) : (w.step action).decoder = w.decoder := by
  cases action with
  | answer now call =>
    simp only [step]
    split <;> rfl
  | work =>
    simp only [step]
    split <;> rfl
  | stop =>
    simp only [step]
    split
    · split <;> rfl
    · rfl
  | cancel => rfl
  | leave => rfl
  | look => rfl

theorem decoder_run (w : LoopAtWork) (actions : List Action) :
    (w.run actions).decoder = w.decoder := by
  induction actions generalizing w with
  | nil => rfl
  | cons action rest ih => exact (ih (w.step action)).trans (w.decoder_step action)

theorem Coherent.answer (h : w.Coherent) (now : Nat) (call : Call) :
    (w.step (.answer now call)).Coherent := by
  cases htodo : w.todo with
  | cons e rest =>
    simp only [step, htodo]
    exact h
  | nil =>
    cases hnext : w.next with
    | stop ended =>
      simp only [step, htodo, hnext]
      exact h
    | go s =>
      -- Nothing was left to do, so all calls up to this one have been counted.
      obtain ⟨dealt, hdeals⟩ := h.deals
      obtain rfl := hdeals.eq_of_todo htodo
      have htally : w.loop.count { s with now }.counters call =
          w.loop.tally (w.answered ++ [call]) := by
        rw [tally_concat, ← h.counters s hnext]
      simp only [step, htodo, hnext]
      refine ⟨?_, ?_, h.seen, fun x hx => ⟨?_, (h.past x hx).atMost⟩, h.sorted⟩
      · intro t ht
        exact (counters_of_deal ht).trans htally
      · rcases countsOf_deal w.loop { s with now } call with hcounts | ⟨hcounts, hsame⟩
        · rw [htally] at hcounts
          exact ⟨w.answered, hdeals.value, .inr ⟨hcounts, call, rfl⟩⟩
        · refine ⟨w.answered ++ [call], ?_, .inl ⟨hcounts, rfl⟩⟩
          show w.counters.value = w.loop.tally (w.answered ++ [call])
          rw [← htally, hsame, h.counters s hnext, hdeals.value]
      · exact (h.past x hx).answered.trans (List.prefix_append _ _)

theorem step_work_of_quiet {time : Nat} {event : Event} {rest : List TimedEvent}
    (htodo : w.todo = (time, event) :: rest) (hquiet : event.counters? = none) :
    w.step .work = { w with
      todo := rest
      next := if event.published?.isSome && !w.hasReceiver then .stop (some time) else w.next } := by
  cases event with
  | counted counters => cases hquiet
  | published record =>
    simp only [step, htodo]
    cases w.hasReceiver <;> rfl
  | _ => simp only [step, htodo, Event.published?]; rfl

theorem step_work_of_counts {time : Nat} {event : Event} {rest : List TimedEvent}
    {counters : Counters} (htodo : w.todo = (time, event) :: rest)
    (hcounts : event.counters? = some counters) :
    w.step .work = { w with todo := rest, counters := w.counters.send counters } := by
  cases event with
  | counted own =>
    obtain rfl := Option.some.inj hcounts
    simp only [step, htodo]
  | _ => cases hcounts

theorem Coherent.work (h : w.Coherent) : (w.step .work).Coherent := by
  cases htodo : w.todo with
  | nil =>
    simp only [step, htodo]
    exact h
  | cons e rest =>
    obtain ⟨time, event⟩ := e
    cases hevent : event.counters? with
    | none =>
      have hcounts : countsOf rest = countsOf w.todo := by
        rw [htodo, countsOf_cons, hevent]
        rfl
      rw [step_work_of_quiet htodo hevent]
      refine h.keep rfl rfl rfl rfl hcounts ?_
      dsimp only
      split
      · exact .inr ⟨_, rfl⟩
      · exact .inl rfl
    | some counters =>
      obtain ⟨dealt, hdeals⟩ := h.deals
      have hcounts : countsOf w.todo = counters :: countsOf rest := by
        rw [htodo, countsOf_cons, hevent]
        rfl
      -- What is counted can only be the last call, and nothing is to be counted behind it.
      rcases hdeals.pending with ⟨hnone, -⟩ | ⟨hone, -⟩
      · rw [hcounts] at hnone
        cases hnone
      · rw [hcounts] at hone
        obtain ⟨rfl, hrest⟩ := List.cons.inj hone
        have hlater : w.counters.value.AtMost (w.loop.tally w.answered) := by
          rw [hdeals.value]
          exact tally_atMost_tally w.loop hdeals.isPrefix
        rw [step_work_of_counts htodo hevent]
        exact ⟨h.counters, ⟨w.answered, rfl, .inl ⟨hrest, rfl⟩⟩, h.seen,
          fun x hx => ⟨(h.past x hx).answered, (h.past x hx).atMost.trans hlater⟩, h.sorted⟩

theorem Coherent.stop (h : w.Coherent) : (w.step .stop).Coherent := by
  cases htodo : w.todo with
  | cons e rest =>
    simp only [step, htodo]
    exact h
  | nil =>
    cases hnext : w.next with
    | stop ended =>
      simp only [step, htodo, hnext]
      exact h
    | go s =>
      cases hcancelled : w.isCancelled with
      | false =>
        have hstep : w.step .stop = w := by
          simp [step, htodo, hnext, hcancelled]
        rw [hstep]
        exact h
      | true =>
        have hstep : w.step .stop = { w with next := .stop (some s.now) } := by
          simp only [step, htodo, hnext, hcancelled, if_true]
        rw [hstep]
        exact h.keep rfl rfl rfl rfl rfl (.inr ⟨_, rfl⟩)

theorem Coherent.look (h : w.Coherent) : (w.step .look).Coherent := by
  obtain ⟨dealt, hdeals⟩ := h.deals
  refine ⟨h.counters, ⟨dealt, hdeals.value, hdeals.pending⟩, ?_, ?_, ?_⟩
  · intro x hx
    rcases List.mem_append.1 hx with hold | hnew
    · exact h.seen x hold
    · obtain rfl := List.mem_singleton.1 hnew
      exact ⟨dealt, hdeals.tells⟩
  · intro x hx
    rcases List.mem_append.1 hx with hold | hnew
    · exact h.past x hold
    · obtain rfl := List.mem_singleton.1 hnew
      exact ⟨List.prefix_refl _, .refl _⟩
  · refine List.pairwise_append.2 ⟨h.sorted, List.pairwise_singleton _ _, ?_⟩
    intro x hx later hlater
    obtain rfl := List.mem_singleton.1 hlater
    exact h.past x hx

theorem Coherent.step (h : w.Coherent) (action : Action) : (w.step action).Coherent := by
  cases action with
  | answer now call => exact h.answer now call
  | work => exact h.work
  | cancel => exact h.keep rfl rfl rfl rfl rfl (.inl rfl)
  | stop => exact h.stop
  | leave => exact h.keep rfl rfl rfl rfl rfl (.inl rfl)
  | look => exact h.look

theorem Coherent.run (h : w.Coherent) (actions : List Action) : (w.run actions).Coherent := by
  induction actions generalizing w with
  | nil => exact h
  | cons action rest ih => exact ih (h.step action)

end LoopAtWork

end Downlink
