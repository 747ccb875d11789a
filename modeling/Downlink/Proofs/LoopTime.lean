import Downlink.ReceiveLoop

/-!
# The time of a loop

Time never runs backwards in a loop: what it does follows in time what it did before, nothing is
done before it starts, and nothing behind its end (`ReceiveLoop.timely_run`). This holds whatever
the source answers, and whether or when the loop is cancelled.
-/

namespace Downlink

namespace ReceiveLoop

variable {l : ReceiveLoop} {s : State} {start now : Nat} {stop : Option Nat}
  {events more : List TimedEvent}

/-- Events in order of time, none before a start and none behind an end, if there is one. -/
structure Timely (start : Nat) (events : List TimedEvent) (stop : Option Nat) : Prop where
  sorted : events.Pairwise fun e f => e.1 ≤ f.1
  start_le : ∀ e ∈ events, start ≤ e.1
  le_stop : ∀ time, stop = some time → start ≤ time ∧ ∀ e ∈ events, e.1 ≤ time

theorem Timely.append (h : Timely start events (some now)) (hmore : Timely now more stop) :
    Timely start (events ++ more) stop := by
  obtain ⟨hnow, hevents⟩ := h.le_stop now rfl
  refine ⟨?_, ?_, ?_⟩
  · rw [List.pairwise_append]
    refine ⟨h.sorted, hmore.sorted, fun e he f hf => ?_⟩
    exact Nat.le_trans (hevents e he) (hmore.start_le f hf)
  · intro e he
    rcases List.mem_append.1 he with hfirst | hlater
    · exact h.start_le e hfirst
    · exact Nat.le_trans hnow (hmore.start_le e hlater)
  · intro time hstop
    obtain ⟨hle, hlast⟩ := hmore.le_stop time hstop
    refine ⟨Nat.le_trans hnow hle, fun e he => ?_⟩
    rcases List.mem_append.1 he with hfirst | hlater
    · exact Nat.le_trans (hevents e hfirst) hle
    · exact hlast e hlater

theorem timely_of_now (hevents : ∀ e ∈ events, e.1 = now)
    (hstop : ∀ time, stop = some time → now ≤ time) : Timely now events stop where
  sorted := by
    rw [List.pairwise_iff_getElem]
    intro i j hi hj _
    have hfirst := hevents _ (List.getElem_mem hi)
    have hsecond := hevents _ (List.getElem_mem hj)
    omega
  start_le := fun e he => Nat.le_of_eq (hevents e he).symm
  le_stop := by
    intro time htime
    refine ⟨hstop time htime, fun e he => ?_⟩
    rw [hevents e he]
    exact hstop time htime

/-! ## Steps -/

/-- A loop that goes on has not been cancelled before. -/
def NotYetCancelled (l : ReceiveLoop) (now : Nat) : Prop :=
  ∀ time, l.cancelAt = some time → now ≤ time

theorem waitUntil_cases (l : ReceiveLoop) (end? : Option Nat) :
    (∃ time, l.waitUntil end? = .over time ∧ end? = some time ∧ l.NotYetCancelled time) ∨
      (∃ time, l.waitUntil end? = .cancelled time ∧ l.cancelAt = some time) ∨
      l.waitUntil end? = .never := by
  unfold waitUntil NotYetCancelled
  cases hend : end? <;> cases hcancel : l.cancelAt
  · exact .inr (.inr rfl)
  · exact .inr (.inl ⟨_, rfl, rfl⟩)
  · exact .inl ⟨_, rfl, rfl, by simp⟩
  · rename_i time cancelled
    by_cases hlt : cancelled < time
    · exact .inr (.inl ⟨cancelled, if_pos hlt, rfl⟩)
    · refine .inl ⟨time, if_neg hlt, rfl, ?_⟩
      rintro _ ⟨⟩
      omega

theorem le_of_end? {wait : Wait} {time : Nat} (h : wait.end? now = some time) : now ≤ time := by
  cases wait <;> simp [Wait.end?] at h <;> omega

/-- What follows a step at some time follows it in time, too. -/
def Follows (l : ReceiveLoop) (start : Nat) (events : List TimedEvent) : Next → Prop
  | .go t => Timely start events (some t.now) ∧ l.NotYetCancelled t.now
  | .stop ended => Timely start events ended

theorem follows_receive (hs : l.NotYetCancelled s.now) (d : RawDatagram) :
    l.Follows s.now (l.receive s d).1 (l.receive s d).2 := by
  unfold receive
  cases l.decoder.decode d.bytes with
  | error error => exact ⟨timely_of_now (by simp) (by simp), hs⟩
  | ok record =>
    cases hreceiver : l.hasReceiver with
    | true => exact ⟨timely_of_now (by simp) (by simp), hs⟩
    | false => exact timely_of_now (by simp) (by simp)

theorem follows_recover (hs : l.NotYetCancelled s.now) (error : LinkError) :
    l.Follows s.now (l.recover s error).1 (l.recover s error).2 := by
  have hcounted : ∀ stop, (∀ time, stop = some time → s.now ≤ time) →
      Timely s.now [(s.now, .counted s.counters.addTransportError)] stop := by
    intro stop hstop
    exact timely_of_now (by simp) hstop
  unfold recover
  cases hgives : l.givesUp error (s.failures + 1) with
  | true =>
    simp only [hgives, ↓reduceIte]
    exact hcounted _ (by simp)
  | false =>
    rcases l.waitUntil_cases (some (s.now + l.options.backoff (s.failures + 1))) with
      ⟨time, hwait, hover, hnot⟩ | ⟨time, hwait, hcancel⟩ | hwait
    · obtain rfl := Option.some.inj hover
      simp only [hgives, hwait]
      exact ⟨hcounted _ (by simp), hnot⟩
    · simp only [hgives, hwait]
      refine hcounted _ ?_
      rintro _ ⟨⟩
      exact hs time hcancel
    · simp only [hgives, hwait]
      exact hcounted _ (by simp)

theorem Follows.request (hle : start ≤ now) {next : Next} (h : l.Follows now events next) :
    l.Follows start ((start, .requested) :: events) next := by
  have hasked : Timely start [(start, .requested)] (some now) := by
    refine timely_of_now (by simp) ?_
    rintro _ ⟨⟩
    exact hle
  cases next with
  | go t => exact ⟨hasked.append h.1, h.2⟩
  | stop ended => exact hasked.append h

/-- **One step leads onward in time.** -/
theorem follows_step (hs : l.NotYetCancelled s.now) (call : Call) :
    l.Follows s.now (l.step s call).1 (l.step s call).2 := by
  unfold step
  rcases l.waitUntil_cases (call.wait.end? s.now) with
    ⟨now, hwait, hover, hnot⟩ | ⟨time, hwait, hcancel⟩ | hwait
  · have hle := le_of_end? hover
    simp only [hwait]
    cases call.answer with
    | exhausted =>
      refine timely_of_now (by simp) ?_
      rintro _ ⟨⟩
      exact hle
    | datagram d => exact Follows.request hle (follows_receive hnot d)
    | failure error => exact Follows.request hle (follows_recover hnot error)
  · simp only [hwait]
    refine timely_of_now (by simp) ?_
    rintro _ ⟨⟩
    exact hs time hcancel
  · simp only [hwait]
    exact timely_of_now (by simp) (by simp)

/-! ## Runs -/

theorem timely_run (hs : l.NotYetCancelled s.now) (source : Source) :
    Timely s.now (l.run s source).events (l.run s source).ended := by
  induction source generalizing s with
  | nil => exact timely_of_now (by simp [run]) (by simp [run])
  | cons call rest ih =>
    have hfollows := follows_step hs call
    rcases hstep : l.step s call with ⟨events, next⟩
    rw [hstep] at hfollows
    cases next with
    | stop ended =>
      rw [run_cons_stop hstep]
      exact hfollows
    | go t =>
      rw [run_cons_go hstep]
      exact hfollows.1.append (ih hfollows.2)

theorem timely_start (l : ReceiveLoop) (source : Source) :
    Timely 0 (l.start source).events (l.start source).ended := by
  have hs : l.NotYetCancelled State.start.now := fun time _ => Nat.zero_le time
  exact timely_run hs source

end ReceiveLoop

end Downlink
