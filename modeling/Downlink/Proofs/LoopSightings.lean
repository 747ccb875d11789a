import Downlink.Proofs.LoopAtWork
import Downlink.Proofs.LoopTime

/-!
# What is seen of a loop

A run of a loop is one order of the actions of which a loop at work is capable: the source answers,
the loop does what is due, somebody looks whenever something was counted, and if the loop is
cancelled, it notices that while it waits (`exists_actions_run`). So whatever holds of all sightings
holds of the counters of every run, at any time and at its end (`run_sightings`).
-/

namespace Downlink

open ReceiveLoop

namespace ReceiveLoop

variable {l : ReceiveLoop} {s : State}

/-- The same loop, not cancelled, and with somebody to receive its records. -/
def undisturbed (l : ReceiveLoop) : ReceiveLoop :=
  ⟨l.decoder, l.options, none, true⟩

/-- If a loop goes on after an answer, it does what the undisturbed one does. Otherwise it ends at
some time, and it has counted what the undisturbed one counts. -/
theorem deal_undisturbed (l : ReceiveLoop) (s : State) (answer : Answer) :
    (∃ events t, l.deal s answer = (events, .go t) ∧ l.undisturbed.deal s answer = (events, .go t) ∧
      (l.hasReceiver = true ∨ ∀ e ∈ events, e.2.published? = none)) ∨
    ∃ events time, l.deal s answer = (events, .stop (some time)) ∧
      countsOf (l.undisturbed.deal s answer).1 = countsOf events := by
  cases answer with
  | exhausted => exact .inr ⟨_, _, rfl, rfl⟩
  | datagram d =>
    simp only [deal, receive, undisturbed]
    cases l.decoder.decode d.bytes with
    | error error => exact .inl ⟨_, _, rfl, rfl, .inr (by simp [Event.published?])⟩
    | ok record =>
      cases hreceiver : l.hasReceiver with
      | true => exact .inl ⟨_, _, rfl, rfl, .inl rfl⟩
      | false => exact .inr ⟨_, _, rfl, rfl⟩
  | failure error =>
    have hgives : l.undisturbed.givesUp error (s.failures + 1) = l.givesUp error (s.failures + 1) :=
      rfl
    simp only [deal, recover, hgives]
    cases l.givesUp error (s.failures + 1) with
    | true => exact .inr ⟨_, _, rfl, rfl⟩
    | false =>
      rcases l.waitUntil_cases (some (s.now + l.options.backoff (s.failures + 1))) with
        ⟨time, hwait, hover, -⟩ | ⟨time, hwait, -⟩ | hwait
      · obtain rfl := Option.some.inj hover
        simp only [hwait]
        exact .inl ⟨_, _, rfl, rfl, .inr (by simp [Event.published?])⟩
      · simp only [hwait]
        exact .inr ⟨_, _, rfl, rfl⟩
      · unfold waitUntil at hwait
        cases hcancel : l.cancelAt with
        | none => simp [hcancel] at hwait
        | some cancelled =>
          simp only [hcancel] at hwait
          split at hwait <;> cases hwait

end ReceiveLoop

namespace LoopAtWork

variable {l : ReceiveLoop} {s : State} {w v u : LoopAtWork} {told more : List Counters}

theorem run_append (w : LoopAtWork) (actions more : List Action) :
    w.run (actions ++ more) = (w.run actions).run more :=
  List.foldl_append

/-! ## Onlookers who miss nothing -/

/-- From one moment to a later one, some counters were put forth, and each was seen. -/
structure Shows (w v : LoopAtWork) (told : List Counters) : Prop where
  loop : v.loop = w.loop
  value : v.counters.value = told.getLast?.getD w.counters.value
  sightings : v.sightings.map Sighting.counters = w.sightings.map Sighting.counters ++ told

theorem Shows.trans (h : w.Shows v told) (hmore : v.Shows u more) : w.Shows u (told ++ more) where
  loop := hmore.loop.trans h.loop
  value := by
    rw [hmore.value, h.value, List.getLast?_append]
    cases more.getLast? <;> rfl
  sightings := by
    rw [hmore.sightings, h.sightings, List.append_assoc]

/-- A loop does one thing, and somebody looks if it has counted. -/
def watched (e : TimedEvent) : List Action :=
  .work :: if e.2.counters?.isSome then [.look] else []

/-- From one moment to a later one, a loop has done some of what was due. -/
structure Works (w v : LoopAtWork) (done rest : List TimedEvent) : Prop where
  shows : w.Shows v (countsOf done)
  answered : v.answered = w.answered
  hasReceiver : v.hasReceiver = w.hasReceiver
  todo : v.todo = rest
  next : (w.hasReceiver = true ∨ ∀ e ∈ done, e.2.published? = none) → v.next = w.next

theorem run_watched {e : TimedEvent} {rest : List TimedEvent} (htodo : w.todo = e :: rest) :
    w.Works (w.run (watched e)) [e] rest := by
  obtain ⟨time, event⟩ := e
  have hcounts : countsOf [(time, event)] = event.counters?.toList := by
    rw [countsOf_cons]
    exact List.append_nil _
  cases hevent : event.counters? with
  | none =>
    have hrun : w.run (watched (time, event)) = w.step .work := by
      simp [watched, hevent, run]
    rw [hrun, step_work_of_quiet htodo hevent]
    refine ⟨⟨rfl, ?_, ?_⟩, rfl, rfl, rfl, fun h => ?_⟩
    · rw [hcounts, hevent]
      rfl
    · rw [hcounts, hevent]
      exact (List.append_nil _).symm
    · rcases h with hreceiver | hquiet
      · simp [hreceiver]
      · have hpublished : event.published? = none := hquiet _ List.mem_cons_self
        simp [hpublished]
  | some counters =>
    have hrun : w.run (watched (time, event)) = (w.step .work).step .look := by
      simp [watched, hevent, run]
    rw [hrun, step_work_of_counts htodo hevent]
    refine ⟨⟨rfl, ?_, ?_⟩, rfl, rfl, rfl, fun _ => rfl⟩
    · rw [hcounts, hevent]
      rfl
    · rw [hcounts, hevent]
      exact List.map_append

/-- **A loop that works does all that was due**, and onlookers see whatever it counts. -/
theorem run_flatMap_watched (w : LoopAtWork) :
    w.Works (w.run (w.todo.flatMap watched)) w.todo [] := by
  generalize htodo : w.todo = todo
  induction todo generalizing w with
  | nil => exact ⟨⟨rfl, rfl, (List.append_nil _).symm⟩, rfl, rfl, htodo, fun _ => rfl⟩
  | cons e rest ih =>
    have hfirst := run_watched htodo
    have hrest := ih _ hfirst.todo
    have hcounts : countsOf (e :: rest) = countsOf [e] ++ countsOf rest :=
      List.filterMap_append (l := [e])
    rw [List.flatMap_cons, run_append]
    refine ⟨?_, hrest.answered.trans hfirst.answered, hrest.hasReceiver.trans hfirst.hasReceiver,
      hrest.todo, fun h => ?_⟩
    · rw [hcounts]
      exact hfirst.shows.trans hrest.shows
    · rw [List.forall_mem_cons] at h
      rw [hrest.next (by rw [hfirst.hasReceiver]; exact h.imp_right And.right), hfirst.next]
      simpa using h.imp_right And.left

/-! ## Runs -/

/-- Nothing is left to do, and the loop waits for an answer. -/
structure Waits (w : LoopAtWork) (l : ReceiveLoop) (s : State) : Prop where
  loop : w.loop = l.undisturbed
  hasReceiver : w.hasReceiver = l.hasReceiver
  todo : w.todo = []
  next : w.next = .go s

/-- A loop at work has come to where a step leads. -/
def Arrives (w : LoopAtWork) (l : ReceiveLoop) : Next → Prop
  | .go t => w.Waits l t
  | .stop ended => w.hasEnded = ended.isSome

theorem Waits.answer (h : w.Waits l s) (now : Nat) (call : Call) :
    w.step (.answer now call) = { w with
      todo := (l.undisturbed.deal { s with now } call.answer).1
      next := (l.undisturbed.deal { s with now } call.answer).2
      answered := w.answered ++ [call] } := by
  simp only [step, h.todo, h.next, h.loop]

theorem run_cancel_stop (htodo : w.todo = []) :
    w.Shows (w.run [.cancel, .stop]) [] ∧ (w.run [.cancel, .stop]).answered = w.answered ∧
      (w.run [.cancel, .stop]).hasEnded = true := by
  have hrun : w.run [.cancel, .stop] = (w.step .cancel).step .stop := rfl
  have hnothing := (List.append_nil (w.sightings.map Sighting.counters)).symm
  cases hnext : w.next with
  | go s =>
    have hstop : (w.step .cancel).step .stop =
        { w with isCancelled := true, next := .stop (some s.now) } := by
      simp [step, htodo, hnext]
    rw [hrun, hstop]
    exact ⟨⟨rfl, rfl, hnothing⟩, rfl, by simp [hasEnded, htodo]⟩
  | stop ended =>
    have hstop : (w.step .cancel).step .stop = { w with isCancelled := true } := by
      simp [step, htodo, hnext]
    rw [hrun, hstop]
    exact ⟨⟨rfl, rfl, hnothing⟩, rfl, by simp [hasEnded, htodo, hnext]⟩

theorem Waits.run_answer (h : w.Waits l s) (now : Nat) (call : Call) {events : List TimedEvent}
    {next : Next} (hdeal : l.undisturbed.deal { s with now } call.answer = (events, next)) :
    let v := w.run (.answer now call :: events.flatMap watched)
    w.Shows v (countsOf events) ∧ v.answered = w.answered ++ [call] ∧
      v.hasReceiver = w.hasReceiver ∧ v.todo = [] ∧
      ((w.hasReceiver = true ∨ ∀ e ∈ events, e.2.published? = none) → v.next = next) := by
  have hanswer := h.answer now call
  rw [hdeal] at hanswer
  have htodo : (w.step (.answer now call)).todo = events := by
    rw [hanswer]
  have hworks := run_flatMap_watched (w.step (.answer now call))
  rw [htodo] at hworks
  refine ⟨⟨?_, ?_, ?_⟩, ?_, ?_, hworks.todo, fun h => ?_⟩
  · exact hworks.shows.loop.trans (by rw [hanswer]; rfl)
  · exact hworks.shows.value.trans (by rw [hanswer])
  · exact hworks.shows.sightings.trans (by rw [hanswer])
  · exact hworks.answered.trans (by rw [hanswer])
  · exact hworks.hasReceiver.trans (by rw [hanswer])
  · refine (hworks.next ?_).trans (by rw [hanswer])
    rw [hanswer]
    exact h

/-- **A step is a few actions**, during which nothing that is counted goes unseen. -/
theorem exists_actions_step (h : w.Waits l s) (call : Call) :
    ∃ actions, w.Shows (w.run actions) (countsOf (l.step s call).1) ∧
      (w.run actions).Arrives l (l.step s call).2 ∧
      (w.run actions).answered <+: w.answered ++ [call] ∧
      ∀ t, (l.step s call).2 = .go t → (w.run actions).answered = w.answered ++ [call] := by
  have hrequested : ∀ events, countsOf ((s.now, .requested) :: events) = countsOf events := by
    intro events
    rw [countsOf_cons]
    rfl
  rcases l.waitUntil_cases (call.wait.end? s.now) with
    ⟨now, hwait, -⟩ | ⟨time, hwait, -⟩ | hwait
  · rw [step_of_over hwait, hrequested]
    rcases l.deal_undisturbed { s with now } call.answer with
      ⟨events, t, hdeal, hundisturbed, hquiet⟩ | ⟨events, time, hdeal, hcounts⟩
    · obtain ⟨hshows, hanswered, hreceiver, htodo, hnext⟩ := h.run_answer now call hundisturbed
      rw [← h.hasReceiver] at hquiet
      rw [hdeal]
      refine ⟨_, hshows, ⟨?_, hreceiver.trans h.hasReceiver, htodo, hnext hquiet⟩, ⟨[], ?_⟩,
        fun _ _ => hanswered⟩
      · rw [hshows.loop, h.loop]
      · rw [hanswered, List.append_nil]
    · -- The loop ends where the undisturbed one might go on, so it is cancelled behind its work.
      obtain ⟨due, next, hdue⟩ :
          ∃ due next, l.undisturbed.deal { s with now } call.answer = (due, next) := ⟨_, _, rfl⟩
      obtain ⟨hshows, hanswered, -, htodo, -⟩ := h.run_answer now call hdue
      obtain ⟨hstops, hsame, hended⟩ := run_cancel_stop htodo
      rw [hdue] at hcounts
      rw [hcounts] at hshows
      rw [← run_append] at hstops hsame hended
      rw [hdeal]
      refine ⟨_, ?_, hended, ⟨[], ?_⟩, ?_⟩
      · rw [← List.append_nil (countsOf events)]
        exact hshows.trans hstops
      · rw [hsame, hanswered, List.append_nil]
      · rintro t ⟨⟩
  · obtain ⟨hstops, hsame, hended⟩ := run_cancel_stop h.todo
    have hstep : l.step s call = ([(s.now, .requested)], .stop (some time)) := by
      simp only [ReceiveLoop.step, hwait]
    rw [hstep]
    refine ⟨_, hstops, hended, ?_, ?_⟩
    · rw [hsame]
      exact List.prefix_append _ _
    · rintro t ⟨⟩
  · have hstep : l.step s call = ([(s.now, .requested)], .stop none) := by
      simp only [ReceiveLoop.step, hwait]
    have hgoes : w.hasEnded = false := by
      simp [hasEnded, h.todo, h.next]
    rw [hstep]
    refine ⟨[], ⟨rfl, rfl, (List.append_nil _).symm⟩, hgoes, List.prefix_append _ _, ?_⟩
    rintro t ⟨⟩

/-- **A run is one order of actions**, during which nothing that is counted goes unseen. -/
theorem exists_actions_run (h : w.Waits l s) (source : Source) :
    ∃ actions, w.Shows (w.run actions) (countsOf (l.run s source).events) ∧
      (w.run actions).hasEnded = (l.run s source).ended.isSome ∧
      (w.run actions).answered <+: w.answered ++ (source ++ [.beyond]) := by
  induction source generalizing w s with
  | nil =>
    obtain ⟨hshows, hanswered, hreceiver, htodo, hnext⟩ := h.run_answer s.now .beyond rfl
    refine ⟨_, hshows, ?_, ⟨[], ?_⟩⟩
    · have hstop := hnext (.inr (List.forall_mem_nil _))
      rw [hasEnded, htodo, hstop]
      rfl
    · rw [hanswered, List.append_nil]
      rfl
  | cons call rest ih =>
    obtain ⟨actions, hshows, harrives, hanswered, hgoes⟩ := exists_actions_step h call
    rcases hstep : l.step s call with ⟨events, next⟩
    rw [hstep] at hshows harrives hgoes
    cases next with
    | stop ended =>
      rw [run_cons_stop hstep]
      refine ⟨actions, hshows, harrives, hanswered.trans ?_⟩
      exact (List.prefix_append_right_inj _).2 ⟨rest ++ [.beyond], rfl⟩
    | go t =>
      obtain ⟨more, hmore, hended, hlater⟩ := ih harrives
      rw [run_cons_go hstep]
      rw [← run_append] at hmore hended hlater
      refine ⟨actions ++ more, ?_, hended, ?_⟩
      · have hcounts : countsOf (events ++ (l.run t rest).events) =
            countsOf events ++ countsOf (l.run t rest).events := List.filterMap_append
        rw [Run.after, hcounts]
        exact hshows.trans hmore
      · rw [hgoes t rfl] at hlater
        rw [List.cons_append, List.append_cons w.answered]
        exact hlater

/-! ## Sightings -/

theorem countsOf_events (r : Run) : countsOf r.events = r.counts.map Prod.snd := by
  rw [Run.counts_map_snd, List.filterMap_map]
  rfl

theorem countersAt_mem (r : Run) (time : Nat) :
    r.countersAt time ∈ .zero :: r.counts.map Prod.snd := by
  rw [Run.countersAt, Run.lastUntil]
  cases hlast : (r.counts.filter (·.1 ≤ time)).getLast? with
  | none => exact List.mem_cons_self
  | some timed =>
    have hmem : timed ∈ r.counts := (List.mem_filter.1 (List.mem_of_getLast? hlast)).1
    exact List.mem_cons_of_mem _ (List.mem_map_of_mem hmem)

/-- **Whoever looks at the counters of a loop sees what is true, and nowhere less than was seen
before**, whatever the source answers, whoever looks whenever, and whether or when the loop is
cancelled or left by the receivers of its records. A run with its counters at any time, and with
those at its end, is one order of all this. -/
theorem run_sightings :
    (∀ (decoder : Decoder) (options : LoopOptions) (hasReceiver : Bool) (actions : List Action),
      let w := (start decoder options hasReceiver).run actions
      (∀ x ∈ w.sightings, ∃ dealt, x.Tells decoder dealt) ∧
        w.sightings.Pairwise Sighting.Precedes) ∧
    ∀ (l : ReceiveLoop) (source : Source), ∃ actions,
      let w := (start l.decoder l.options l.hasReceiver).run actions
      let r := l.start source
      w.answered <+: source ++ [.beyond] ∧
        w.sightings.map Sighting.counters = .zero :: (r.counts.map Prod.snd ++ [r.counters]) ∧
        (∀ time, r.countersAt time ∈ w.sightings.map Sighting.counters) ∧
        w.sightings.getLast? = some ⟨r.counters, w.answered, r.ended.isSome⟩ := by
  refine ⟨fun decoder options hasReceiver actions => ?_, fun l source => ?_⟩
  · have hcoherent := (coherent_start decoder options hasReceiver).run actions
    have hdecoder := decoder_run (start decoder options hasReceiver) actions
    refine ⟨fun x hx => ?_, hcoherent.sorted⟩
    rw [← show _ = decoder from hdecoder]
    exact hcoherent.seen x hx
  · have hwaits : ((start l.decoder l.options l.hasReceiver).run [.look]).Waits l .start :=
      ⟨rfl, rfl, rfl, rfl⟩
    obtain ⟨actions, hshows, hended, hanswered⟩ := exists_actions_run hwaits source
    rw [countsOf_events] at hshows
    rw [← run_append] at hshows hended hanswered
    have hcounters : ((start l.decoder l.options l.hasReceiver).run
        ([.look] ++ actions)).counters.value = (l.start source).counters := by
      rw [hshows.value, Run.counters, List.getLast?_map]
      rfl
    have hlook : (start l.decoder l.options l.hasReceiver).run ([.look] ++ actions ++ [.look]) =
        ((start l.decoder l.options l.hasReceiver).run ([.look] ++ actions)).step .look := by
      rw [run_append]
      rfl
    have hseen : ((start l.decoder l.options l.hasReceiver).run
        ([.look] ++ actions ++ [.look])).sightings.map Sighting.counters =
        .zero :: ((l.start source).counts.map Prod.snd ++ [(l.start source).counters]) := by
      rw [hlook, ← hcounters]
      show List.map Sighting.counters (_ ++ [_]) = _
      rw [List.map_append, hshows.sightings]
      rfl
    refine ⟨[.look] ++ actions ++ [.look], ?_, hseen, ?_, ?_⟩
    · rw [hlook]
      exact hanswered
    · intro time
      rw [hseen, ← List.cons_append]
      exact List.mem_append_left _ (countersAt_mem _ time)
    · rw [hlook, ← hcounters]
      show (_ ++ [_]).getLast? = _
      rw [List.getLast?_concat, sighting, hended]
      rfl

/-- Somebody looks before a record is counted, and before a failure is, while the loop is
cancelled. -/
def hasty : List Action :=
  [.answer 3 ⟨.pause 3, .datagram ⟨[0x5e, 0xd5, 7, 0x0d, 0x0a], 0⟩⟩, .look, .work, .look, .work,
   .work, .answer 9 ⟨.pause 0, .failure (.ofSystem "down")⟩, .cancel, .look, .stop, .work, .stop,
   .look]

theorem run_sightings_hasty :
    let w := (start impatient.decoder impatient.options true).run hasty
    w.sightings.map (fun x => (x.counters, x.answered.length, x.hasEnded)) =
      [(⟨0, 0, 0, 0, 0, 0, 0, 0⟩, 1, false), (⟨1, 1, 0, 0, 0, 0, 0, 0⟩, 1, false),
       (⟨1, 1, 0, 0, 0, 0, 0, 0⟩, 2, false), (⟨1, 1, 0, 0, 0, 0, 0, 1⟩, 2, true)] ∧
      (∀ x ∈ w.sightings, ∃ dealt, x.Tells impatient.decoder dealt) ∧
      w.sightings.Pairwise Sighting.Precedes :=
  ⟨by decide, run_sightings.1 impatient.decoder impatient.options true hasty⟩

end LoopAtWork

end Downlink
