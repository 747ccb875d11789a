import Downlink.Proofs.LoopPace
import Downlink.Proofs.LoopTime

/-!
# When a loop makes its calls

A loop that has the answer of its source goes on at once, unless it is a failure. Then it waits, for
twice its base after the first failure in a row and twice as long after each further one, up to the
fifth (`ReceiveLoop.pause`). A failure that ends the loop is not waited out.

So the time of every call is told by the calls before it, and by nothing else: it is the sum of what
they took and of the waits behind them (`ReceiveLoop.start_onSchedule`). A loop that is cancelled
keeps to the same schedule until then.
-/

namespace Downlink

/-- How long a call takes that is made now, if it is ever answered. -/
def Wait.duration? (now : Nat) : Wait → Option Nat
  | .pause milliseconds => some milliseconds
  | .due moment => some (moment - now)
  | .forever => none

theorem Wait.end?_eq (now : Nat) (wait : Wait) :
    wait.end? now = (wait.duration? now).map (now + ·) := by
  cases wait with
  | pause milliseconds => rfl
  | due moment =>
    refine congrArg some ?_
    show max now moment = now + (moment - now)
    omega
  | forever => rfl

namespace ReceiveLoop

/-! ## Calls and their times -/

def Waited.over? : Waited → Option Nat
  | .over now => some now
  | _ => none

/-- A call that a loop makes. -/
structure Visit where
  call : Call
  /-- The failures in a row that the loop has counted before. -/
  failures : Nat
  asked : Nat
  /-- When the loop has the answer, if it gets it. -/
  answered : Option Nat
deriving DecidableEq, Repr

def visit (l : ReceiveLoop) (s : State) (call : Call) : Visit :=
  ⟨call, s.failures, s.now, (l.waitUntil (call.wait.end? s.now)).over?⟩

/-- The calls that a loop makes from a state on. -/
def visits (l : ReceiveLoop) (s : State) : Source → List Visit
  | [] => [⟨.beyond, s.failures, s.now, some s.now⟩]
  | call :: rest =>
    l.visit s call ::
      match (l.step s call).2 with
      | .go t => l.visits t rest
      | .stop _ => []

/-- What a loop does about a call, and when. -/
def timedDeeds (l : ReceiveLoop) (before : Source) (v : Visit) : List TimedEvent :=
  (v.asked, .requested) ::
    match v.answered with
    | some time => (l.deeds before v.call).tail.map (time, ·)
    | none => []

def timedDoings (l : ReceiveLoop) (before : Source) : List Visit → List TimedEvent
  | [] => []
  | v :: rest => l.timedDeeds before v ++ l.timedDoings (before ++ [v.call]) rest

/-- How long the source makes the loop wait. -/
def Visit.own (v : Visit) : Nat := (v.call.wait.duration? v.asked).getD 0

/-- How long the loop waits behind a call, of its own accord. -/
def pause (l : ReceiveLoop) (v : Visit) : Nat :=
  if v.call.isFailure then l.options.backoffBase * 2 ^ min (v.failures + 1) 5 else 0

/-- What a loop spends on calls and on the waits behind them. -/
def spent (l : ReceiveLoop) (earlier : List Visit) : Nat :=
  earlier.foldr (fun v time => v.own + l.pause v + time) 0

/-- How a loop ends with a call. -/
structure Visit.Stops (l : ReceiveLoop) (before : Source) (v : Visit) (ended : Option Nat) :
    Prop where
  /-- The call is not answered before the loop is cancelled, or never. -/
  unanswered : v.answered = none → ended = l.cancelAt
  /-- Behind a call that ends the loop there is no wait. -/
  ends : ∀ time, v.answered = some time → l.endsAt before v.call = true → ended = some time
  /-- The loop is cancelled when it waits behind a failure. -/
  breaksOff : ∀ time, v.answered = some time → l.endsAt before v.call = false →
    v.call.isFailure = true ∧ ended = l.cancelAt ∧
      ∃ cancelled, l.cancelAt = some cancelled ∧ cancelled < time + l.pause v

/-- A call is answered when it is over, if the loop is not cancelled before. -/
def Visit.Waits (l : ReceiveLoop) (v : Visit) : Prop :=
  v.answered = (v.call.wait.duration? v.asked).map (v.asked + ·) ∨
    v.answered = none ∧ ∃ cancelled, l.cancelAt = some cancelled ∧
      ∀ time, v.call.wait.end? v.asked = some time → cancelled < time

/-- When a call is made behind earlier ones, and what comes next. -/
structure Visit.Lawful (l : ReceiveLoop) (earlier : List Visit) (v : Visit) (next : Option Visit)
    (ended : Option Nat) : Prop where
  asked : v.asked = l.spent earlier
  waits : v.Waits l
  failures : v.failures = Source.trailingFailures (earlier.map Visit.call)
  /-- With one failure more, a loop has not counted more than it puts up with. -/
  bounded : v.failures + 1 ≤ max l.options.maxTransportErrors 1
  /-- There is a wait before the next call only if this one has failed. The failures are counted from
  the last call on that has not. -/
  goesOn : ∀ w, next = some w → ∃ time, v.answered = some time ∧
    l.endsAt (earlier.map Visit.call) v.call = false ∧ w.asked = time + l.pause v ∧
    w.failures = if v.call.isFailure then v.failures + 1 else 0
  stops : next = none → v.Stops l (earlier.map Visit.call) ended

/-- **The schedule of a run**: the calls that a loop makes, and when. -/
structure OnSchedule (l : ReceiveLoop) (source : Source) (visits : List Visit) (r : Run) :
    Prop where
  nonempty : visits ≠ []
  made : visits.map Visit.call <+: source ++ [.beyond]
  /-- Everything is done when the loop asks or has the answer. -/
  events : r.events = l.timedDoings [] visits
  lawful : ∀ earlier v later, visits = earlier ++ v :: later →
    v.Lawful l earlier later.head? r.ended
  /-- A word has room for the failures, whatever number of them ends the loop. -/
  fits : l.options.maxTransportErrors < UInt32.size →
    ∀ v ∈ visits, v.failures + 1 < UInt32.size
  /-- A loop comes to its end if it is not cancelled and all its calls are answered. -/
  ends : l.cancelAt = none → (∀ call ∈ source, call.wait ≠ .forever) → r.ended.isSome
  /-- Unless it is cancelled, it runs as long as its calls and the waits between them take. -/
  total : ∀ ended, r.ended = some ended → l.cancelAt = some ended ∨
    ∃ earlier v, visits = earlier ++ [v] ∧ ended = l.spent earlier + v.own

/-! ## Steps -/

variable {l : ReceiveLoop} {before : Source} {call : Call} {s : State}

/-- How a wait ends, and what is known then of the time when the loop is cancelled. -/
theorem waitUntil_outcome (l : ReceiveLoop) (end? : Option Nat) :
    (∃ time, l.waitUntil end? = .over time ∧ end? = some time) ∨
      (∃ cancelled, l.waitUntil end? = .cancelled cancelled ∧ l.cancelAt = some cancelled ∧
        ∀ time, end? = some time → cancelled < time) ∨
      l.waitUntil end? = .never ∧ l.cancelAt = none ∧ end? = none := by
  unfold waitUntil
  cases end? with
  | none => cases l.cancelAt <;> simp
  | some time =>
    cases l.cancelAt with
    | none => simp
    | some cancelled => by_cases hlt : cancelled < time <;> simp [hlt]

theorem map_snd_of_now {events : List TimedEvent} {time : Nat} (h : ∀ e ∈ events, e.1 = time) :
    (events.map Prod.snd).map (time, ·) = events := by
  have hsame : events.map ((time, ·) ∘ Prod.snd) = events.map id :=
    List.map_congr_left fun e he => congrArg (·, e.2) (h e he).symm
  rw [List.map_map, hsame, List.map_id]

theorem receive_at_once (l : ReceiveLoop) (s : State) (d : RawDatagram) :
    (∀ e ∈ (l.receive s d).1, e.1 = s.now) ∧
      match (l.receive s d).2 with
      | .go t => t.now = s.now
      | .stop ended => ended = some s.now := by
  unfold receive
  cases l.decoder.decode d.bytes with
  | error error => simp
  | ok record => cases l.hasReceiver <;> simp

/-- Where a loop is behind a call. -/
def Visit.Leads (l : ReceiveLoop) (before : Source) (v : Visit) : Next → Prop
  | .go t => l.endsAt before v.call = false ∧ l.Agrees (before ++ [v.call]) t ∧
    ∃ time, v.answered = some time ∧ t.now = time + l.pause v
  | .stop ended => v.Stops l before ended

theorem stops_of_unanswered {v : Visit} (h : v.answered = none) {ended : Option Nat}
    (hended : ended = l.cancelAt) : v.Stops l before ended where
  unanswered := fun _ => hended
  ends := fun time htime => by rw [h] at htime; cases htime
  breaksOff := fun time htime => by rw [h] at htime; cases htime

theorem stops_of_endsAt {v : Visit} {time : Nat} (h : v.answered = some time)
    (hends : l.endsAt before v.call = true) : v.Stops l before (some time) where
  unanswered := fun hnone => by rw [h] at hnone; cases hnone
  ends := fun _ htime _ => h.symm.trans htime
  breaksOff := fun _ _ hgoes => by rw [hends] at hgoes; cases hgoes

theorem receive_visit {d : RawDatagram} {v : Visit} {time : Nat} (hs : l.Agrees before s)
    (hcall : v.call.answer = .datagram d) (htime : v.answered = some time) :
    (l.receive { s with now := time } d).1 = (l.deeds before v.call).tail.map (time, ·) ∧
      v.Leads l before (l.receive { s with now := time } d).2 := by
  obtain ⟨events, next, hreceive, hevents, hleads⟩ := receive_of_agrees hs hcall time
  have honce := receive_at_once l { s with now := time } d
  rw [hreceive] at honce ⊢
  obtain ⟨hnow, hnext⟩ := honce
  refine ⟨?_, ?_⟩
  · rw [← hevents, List.tail_cons, map_snd_of_now hnow]
  · cases next with
    | go t =>
      have hpause : l.pause v = 0 := by
        simp [pause, Call.isFailure, hcall]
      exact ⟨hleads.1, hleads.2, time, htime, by rw [hpause]; exact hnext⟩
    | stop ended =>
      obtain rfl : ended = some time := hnext
      exact stops_of_endsAt htime hleads.1

theorem recover_visit {error : LinkError} {v : Visit} {time : Nat} (hs : l.Agrees before s)
    (hcall : v.call.answer = .failure error) (htime : v.answered = some time)
    (hfailures : v.failures = s.failures) :
    (l.recover { s with now := time } error).1 = (l.deeds before v.call).tail.map (time, ·) ∧
      v.Leads l before (l.recover { s with now := time } error).2 := by
  have hgives := givesUp_eq_endsAt hs hcall
  have hfailure : v.call.isFailure = true := by
    simp [Call.isFailure, hcall]
  have hpause : l.pause v = l.options.backoff (s.failures + 1) := by
    rw [pause, if_pos hfailure, hfailures]
    rfl
  rw [deeds_of_failure hs hcall]
  cases hends : l.endsAt before v.call with
  | true =>
    rw [hends] at hgives
    simp only [recover, hgives]
    exact ⟨rfl, stops_of_endsAt htime hends⟩
  | false =>
    rw [hends] at hgives
    rcases l.waitUntil_outcome (some (time + l.options.backoff (s.failures + 1))) with
      ⟨next, hwait, hover⟩ | ⟨cancelled, hwait, hcancel, hearly⟩ | ⟨-, -, hnever⟩
    · obtain rfl := Option.some.inj hover
      simp only [recover, hgives, hwait]
      exact ⟨rfl, hends, agrees_after_failure hs hcall hgives _, time, htime, by rw [hpause]⟩
    · simp only [recover, hgives, hwait]
      refine ⟨rfl, ?_, ?_, ?_⟩
      · intro hnone
        rw [htime] at hnone
        cases hnone
      · intro _ _ hnot
        rw [hends] at hnot
        cases hnot
      · intro later hlater _
        rw [htime] at hlater
        cases hlater
        rw [hpause]
        exact ⟨hfailure, hcancel.symm, cancelled, hcancel, hearly _ rfl⟩
    · cases hnever

/-- **One step keeps to the schedule**, whatever the source answers and whenever the loop is
cancelled. -/
theorem step_visit (hs : l.Agrees before s) (call : Call) :
    (l.step s call).1 = l.timedDeeds before (l.visit s call) ∧
      (l.visit s call).Leads l before (l.step s call).2 := by
  rcases l.waitUntil_outcome (call.wait.end? s.now) with
    ⟨time, hwait, -⟩ | ⟨cancelled, hwait, hcancel, -⟩ | ⟨hwait, hcancel, -⟩
  · have hvisit : l.visit s call = ⟨call, s.failures, s.now, some time⟩ := by
      rw [visit, hwait]
      rfl
    rw [hvisit, timedDeeds]
    cases hcall : call.answer with
    | exhausted =>
      have hends : l.endsAt before call = true := by
        simp [endsAt, hcall]
      have hnothing : (l.deeds before call).tail = [] := by
        simp [deeds, hcall]
      simp only [step, hwait, hcall, hnothing]
      exact ⟨rfl, stops_of_endsAt rfl hends⟩
    | datagram d =>
      obtain ⟨hevents, hleads⟩ :=
        receive_visit (v := ⟨call, s.failures, s.now, some time⟩) hs hcall rfl
      simp only [step, hwait, hcall]
      exact ⟨congrArg _ hevents, hleads⟩
    | failure error =>
      obtain ⟨hevents, hleads⟩ :=
        recover_visit (v := ⟨call, s.failures, s.now, some time⟩) hs hcall rfl rfl
      simp only [step, hwait, hcall]
      exact ⟨congrArg _ hevents, hleads⟩
  · simp only [step, visit, hwait]
    exact ⟨rfl, stops_of_unanswered rfl hcancel.symm⟩
  · simp only [step, visit, hwait]
    exact ⟨rfl, stops_of_unanswered rfl hcancel.symm⟩

/-! ## Runs -/

variable {earlier between later : List Visit} {v w : Visit}

theorem spent_concat (l : ReceiveLoop) (earlier : List Visit) (v : Visit) :
    l.spent (earlier ++ [v]) = l.spent earlier + (v.own + l.pause v) := by
  induction earlier with
  | nil => exact Nat.add_comm _ _
  | cons first rest ih =>
    show first.own + l.pause first + l.spent (rest ++ [v]) = _
    rw [ih, ← Nat.add_assoc]
    rfl

theorem waits_visit (l : ReceiveLoop) (s : State) (call : Call) : (l.visit s call).Waits l := by
  unfold Visit.Waits
  rw [← Wait.end?_eq]
  show (l.visit s call).answered = call.wait.end? s.now ∨ _
  rcases l.waitUntil_outcome (call.wait.end? s.now) with
    ⟨time, hwait, hover⟩ | ⟨cancelled, hwait, hcancel⟩ | ⟨hwait, -, hnever⟩
  · exact .inl (by rw [visit, hwait, hover]; rfl)
  · exact .inr ⟨by rw [visit, hwait]; rfl, cancelled, hcancel⟩
  · exact .inl (by rw [visit, hwait, hnever]; rfl)

theorem Visit.Waits.eq_add_own {time : Nat} (h : v.Waits l) (htime : v.answered = some time) :
    time = v.asked + v.own := by
  rcases h with hanswered | ⟨hnone, -⟩
  · rw [htime] at hanswered
    obtain ⟨duration, hduration, rfl⟩ := Option.map_eq_some_iff.1 hanswered.symm
    rw [Visit.own, hduration, Option.getD_some]
  · rw [htime] at hnone
    cases hnone

theorem head?_visits (l : ReceiveLoop) (s : State) (source : Source) :
    ∃ v, (l.visits s source).head? = some v ∧ v.asked = s.now ∧ v.failures = s.failures := by
  cases source <;> exact ⟨_, rfl, rfl, rfl⟩

theorem lawful_visit (hs : l.Agrees (earlier.map Visit.call) s) (hnow : s.now = l.spent earlier)
    (call : Call) {next : Option Visit} {ended : Option Nat}
    (hgoesOn : ∀ w, next = some w → ∃ time, (l.visit s call).answered = some time ∧
      l.endsAt (earlier.map Visit.call) call = false ∧
      w.asked = time + l.pause (l.visit s call) ∧
      w.failures = if call.isFailure then s.failures + 1 else 0)
    (hstops : next = none → (l.visit s call).Stops l (earlier.map Visit.call) ended) :
    (l.visit s call).Lawful l earlier next ended where
  asked := hnow
  waits := l.waits_visit s call
  failures := hs.failures
  bounded := hs.patient
  goesOn := hgoesOn
  stops := hstops

theorem failures_of_agrees {t : State} (hs : l.Agrees before s)
    (ht : l.Agrees (before ++ [call]) t) :
    t.failures = if call.isFailure then s.failures + 1 else 0 := by
  rw [ht.failures]
  cases hfailure : call.isFailure with
  | true =>
    rw [Source.trailingFailures_concat_of_failure before hfailure, ← hs.failures, if_pos rfl]
  | false => rw [Source.trailingFailures_concat_of_not_failure before hfailure, if_neg (by simp)]

theorem eq_of_singleton_eq_append {α : Type} {a b : α} {front back : List α}
    (h : [a] = front ++ b :: back) : front = [] ∧ a = b ∧ back = [] := by
  cases front with
  | nil =>
    obtain ⟨rfl, rfl⟩ := List.cons.inj h
    exact ⟨rfl, rfl, rfl⟩
  | cons c rest => simp at h

/-- **A run keeps to the schedule**, from any state that earlier calls explain. -/
theorem run_lawful (source : Source) (hs : l.Agrees (earlier.map Visit.call) s)
    (hnow : s.now = l.spent earlier) (hvisits : l.visits s source = between ++ v :: later) :
    v.Lawful l (earlier ++ between) later.head? (l.run s source).ended := by
  -- Along the source; the calls made so far move from it to those before.
  induction source generalizing earlier s between with
  | nil =>
    obtain ⟨rfl, rfl, rfl⟩ := eq_of_singleton_eq_append hvisits
    rw [List.append_nil]
    exact ⟨hnow, .inl rfl, hs.failures, hs.patient, (fun w hw => by cases hw),
      fun _ => stops_of_endsAt rfl rfl⟩
  | cons call rest ih =>
    obtain ⟨-, hleads⟩ := step_visit hs call
    rcases hstep : l.step s call with ⟨events, next⟩
    rw [hstep] at hleads
    rw [visits, hstep] at hvisits
    cases next with
    | stop ended =>
      obtain ⟨rfl, rfl, rfl⟩ := eq_of_singleton_eq_append hvisits
      rw [run_cons_stop hstep, List.append_nil]
      exact lawful_visit hs hnow call (fun w hw => by cases hw) fun _ => hleads
    | go t =>
      obtain ⟨hgoes, ht, time, htime, hpause⟩ := hleads
      rw [run_cons_go hstep]
      cases between with
      | nil =>
        obtain ⟨rfl, rfl⟩ := List.cons.inj hvisits
        obtain ⟨w, hw, hasked, hfailures⟩ := l.head?_visits t rest
        rw [List.append_nil, hw]
        refine lawful_visit hs hnow call (fun w' hw' => ?_) fun hnone => by cases hnone
        obtain rfl := Option.some.inj hw'
        exact ⟨time, htime, hgoes, hasked.trans hpause, hfailures.trans (failures_of_agrees hs ht)⟩
      | cons first others =>
        obtain ⟨rfl, hothers⟩ := List.cons.inj hvisits
        have hagrees : l.Agrees ((earlier ++ [l.visit s call]).map Visit.call) t := by
          rw [List.map_append]
          exact ht
        have htimes : t.now = l.spent (earlier ++ [l.visit s call]) := by
          have hwaits := (l.waits_visit s call).eq_add_own htime
          rw [spent_concat, ← Nat.add_assoc, ← hnow, hpause, hwaits]
          rfl
        have hlater := ih hagrees htimes hothers
        rw [List.append_assoc] at hlater
        exact hlater

theorem events_run (source : Source) (hs : l.Agrees before s) :
    (l.run s source).events = l.timedDoings before (l.visits s source) := by
  induction source generalizing before s with
  | nil => rfl
  | cons call rest ih =>
    obtain ⟨hevents, hleads⟩ := step_visit hs call
    rcases hstep : l.step s call with ⟨events, next⟩
    rw [hstep] at hevents hleads
    rw [visits, hstep, timedDoings, ← hevents]
    cases next with
    | stop ended =>
      rw [run_cons_stop hstep]
      exact (List.append_nil events).symm
    | go t =>
      rw [run_cons_go hstep]
      exact congrArg (events ++ ·) (ih hleads.2.1)

theorem map_call_visits (l : ReceiveLoop) (s : State) (source : Source) :
    (l.visits s source).map Visit.call <+: source ++ [.beyond] := by
  induction source generalizing s with
  | nil => exact List.prefix_refl _
  | cons call rest ih =>
    rw [visits, List.map_cons, List.cons_append]
    refine List.cons_prefix_cons.2 ⟨rfl, ?_⟩
    cases (l.step s call).2 with
    | go t => exact ih t
    | stop ended => exact List.nil_prefix

/-- **A loop makes the calls of its source on schedule**, from its start to its end, whatever the
source answers and whenever the loop is cancelled. -/
theorem start_onSchedule (l : ReceiveLoop) (source : Source) :
    l.OnSchedule source (l.visits .start source) (l.start source) := by
  have hlawful : ∀ earlier v later, l.visits .start source = earlier ++ v :: later →
      v.Lawful l earlier later.head? (l.start source).ended := by
    have hstart : l.Agrees (List.map Visit.call []) .start := l.agrees_start
    exact fun earlier v later hvisits => run_lawful source hstart rfl hvisits
  have hnonempty : l.visits .start source ≠ [] := by
    obtain ⟨v, hv, -⟩ := l.head?_visits .start source
    intro hnone
    rw [hnone] at hv
    cases hv
  refine ⟨hnonempty, l.map_call_visits .start source, events_run source l.agrees_start, hlawful,
    fun hmax v hv => ?_, fun hcancel hanswers => ?_, fun ended hended => ?_⟩
  · obtain ⟨earlier, later, hvisits⟩ := List.append_of_mem hv
    have hbounded := (hlawful earlier v later hvisits).bounded
    unfold UInt32.size at *
    omega
  · obtain ⟨_, _, -, -, hended⟩ := run_of_agrees hcancel source hanswers l.agrees_start l.goesOn_nil
    exact hended
  · have hvisits := (List.dropLast_concat_getLast hnonempty).symm
    have hlast := hlawful _ _ [] hvisits
    have hstops := hlast.stops rfl
    rw [hended] at hstops
    cases hanswered : ((l.visits .start source).getLast hnonempty).answered with
    | none => exact .inl (hstops.unanswered hanswered).symm
    | some time =>
      cases hends : l.endsAt ((l.visits .start source).dropLast.map Visit.call)
          ((l.visits .start source).getLast hnonempty).call with
      | true =>
        obtain rfl := Option.some.inj (hstops.ends time hanswered hends)
        rw [hlast.waits.eq_add_own hanswered, hlast.asked]
        exact .inr ⟨_, _, hvisits, rfl⟩
      | false => exact .inl (hstops.breaksOff time hanswered hends).2.1.symm

/-- A loop that gives up at the eighth failure in a row. -/
def stubborn : ReceiveLoop :=
  ⟨⟨.octet, ⟨⟨0x5e, 0xd5⟩, ⟨0x0d, 0x0a⟩⟩, false⟩, ⟨8, 50⟩, none, true⟩

/-- Two failures, a datagram without a frame, and then nothing but failures. -/
def outage : Source :=
  List.replicate 2 ⟨.pause 0, .failure (.ofSystem "down")⟩ ++
    [⟨.pause 5, .datagram ⟨[0x5e], 0⟩⟩] ++
    List.replicate 9 ⟨.pause 0, .failure (.ofSystem "down")⟩

/-- The waits are 100 and 200 milliseconds, and behind the datagram 100, 200, 400, 800 and three
times 1600. The last failure is not waited out. -/
theorem start_onSchedule_outage :
    stubborn.OnSchedule outage (stubborn.visits .start outage) (stubborn.start outage) ∧
    (stubborn.visits .start outage).map (fun v => (v.failures, v.asked, v.answered)) =
      [(0, 0, some 0), (1, 100, some 100), (2, 300, some 305), (0, 305, some 305),
        (1, 405, some 405), (2, 605, some 605), (3, 1005, some 1005), (4, 1805, some 1805),
        (5, 3405, some 3405), (6, 5005, some 5005), (7, 6605, some 6605)] ∧
    (stubborn.start outage).ended = some 6605 :=
  ⟨start_onSchedule stubborn outage, by decide, by decide⟩

end ReceiveLoop

end Downlink
