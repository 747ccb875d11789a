import Downlink.Proofs.Broadcast
import Downlink.Proofs.RunMoments

/-!
# A run among its readers

A loop writes two channels, one behind the other: it counts a record and later publishes it, and in
between it calls its observer. Nothing keeps readers from looking at the one channel or at the other
at any moment, so the events of a run are taken apart here and put in any order with the looks of
those who follow its records (`Unfolding.step`).

Every action keeps that the channels hold what the events so far have put in them (`Coherent.step`).
So whoever gets a record finds it counted from then on (`run_counted_first`).
-/

namespace Downlink

open ReceiveLoop

/-! ## The system -/

/-- A call of the observer. -/
structure Hearing where
  record : Record
  /-- What the counters told when the observer was called. -/
  counters : Counters

/-- A run that unfolds while others read what it writes. -/
structure Unfolding where
  /-- What the run has done. -/
  past : List Event
  /-- What it is still going to do. -/
  due : List Event
  /-- Whether it comes to an end then. -/
  ends : Bool
  counters : Watch Counters
  records : Broadcast
  heard : List Hearing

namespace Unfolding

/-- What may happen, in any order. -/
inductive Action
  /-- The run does the next thing. -/
  | go
  | subscribe (rate : UpdateRate)
  /-- A follower of the records goes on with its poll up to the next look, at a time in
  nanoseconds. -/
  | advance (follower now : Nat)
  /-- A follower polls without a break, at a time in milliseconds. -/
  | poll (follower now : Nat)

/-- A run that has done nothing so far. -/
def ofRun (r : Run) : Unfolding :=
  ⟨[], r.events.map Prod.snd, r.ended.isSome, .new .zero, .start, []⟩

/-- What an event writes. -/
def write (u : Unfolding) : Event → Unfolding
  | .requested => u
  | .counted counters => { u with counters := u.counters.send counters }
  | .accepted _ record => { u with heard := u.heard ++ [⟨record, u.counters.value⟩] }
  | .rejected .. => u
  | .published record => { u with records := u.records.step (.publish record) }

def step (u : Unfolding) : Action → Unfolding
  | .go =>
    match u.due with
    | [] => if u.ends then { u with records := u.records.step .close } else u
    | e :: due => { u.write e with past := u.past ++ [e], due }
  | .subscribe rate => { u with records := u.records.step (.subscribe rate) }
  | .advance follower now => { u with records := u.records.step (.advance follower now) }
  | .poll follower now => { u with records := u.records.step (.poll follower now) }

def run (u : Unfolding) (actions : List Action) : Unfolding :=
  actions.foldl step u

/-- Somebody has got a publication: it is the latest, or a follower got it. -/
def Obtains (u : Unfolding) (p : Publication) : Prop :=
  u.records.channel.value = some p ∨ ∃ f ∈ u.records.followers, p ∈ f.got

end Unfolding

/-! ## What readers find -/

/-- What an observer finds that was called `number` times before: its record is the last that has been
counted. -/
structure Hearing.Timely (d : Decoder) (datagrams : List Bytes) (number : Nat) (x : Hearing) :
    Prop where
  records : x.counters.records = number + 1
  datagrams : ∃ place, d.GivesAt datagrams place number x.record ∧ place + 1 ≤ x.counters.datagrams

namespace Unfolding

variable {u : Unfolding} {l : ReceiveLoop} {source : Source} {e : Event} {due : List Event}
  {p : Publication}

/-- What every action keeps: the channels hold what the events so far have put in them. -/
structure Coherent (l : ReceiveLoop) (source : Source) (u : Unfolding) : Prop where
  events : u.past ++ u.due = (l.start source).events.map Prod.snd
  counters : u.counters.value = lastCounters .zero u.past
  published : u.records.published = u.past.filterMap Event.published?
  heard : u.heard.map Hearing.record = u.past.filterMap Event.accepted?
  records : u.records.Coherent
  closed : u.records.channel.closed = true → u.due = []
  timely : ∀ (number : Nat) (x : Hearing), u.heard[number]? = some x →
    x.Timely l.decoder source.datagrams number

theorem coherent_ofRun (l : ReceiveLoop) (source : Source) :
    (ofRun (l.start source)).Coherent l source where
  events := rfl
  counters := rfl
  published := rfl
  heard := rfl
  records := Broadcast.coherent_start
  closed := fun h => by cases h
  timely := fun number x hx => by cases hx

theorem Coherent.past_isPrefix (h : u.Coherent l source) :
    u.past <+: (l.start source).events.map Prod.snd := by
  rw [← h.events]
  exact List.prefix_append _ _

theorem Coherent.read (h : u.Coherent l source) {records : Broadcast} (hrecords : records.Coherent)
    (hpublished : records.published = u.records.published)
    (hclosed : records.channel.closed = true → u.due = []) :
    ({ u with records } : Unfolding).Coherent l source where
  events := h.events
  counters := h.counters
  published := hpublished.trans h.published
  heard := h.heard
  records := hrecords
  closed := hclosed
  timely := h.timely

/-! ### Events -/

theorem counters_write (u : Unfolding) (e : Event) :
    (u.write e).counters.value = lastCounters u.counters.value [e] := by
  cases e <;> rfl

theorem heard_write (u : Unfolding) (e : Event) :
    (u.write e).heard = u.heard ++ e.accepted?.toList.map (⟨·, u.counters.value⟩) := by
  cases e <;> simp [write, Event.accepted?]

theorem records_write (hopen : u.records.channel.closed = false) (e : Event) :
    (u.write e).records.published = u.records.published ++ e.published?.toList ∧
      (u.write e).records.channel.closed = false := by
  cases e with
  | published record =>
    simp only [write, Broadcast.step, hopen]
    exact ⟨rfl, hopen⟩
  | _ => exact ⟨(List.append_nil _).symm, hopen⟩

theorem coherent_write (h : u.records.Coherent) (e : Event) : (u.write e).records.Coherent := by
  cases e with
  | published record => exact h.step (.publish record)
  | _ => exact h

theorem getElem?_concat_cases {α : Type} {xs : List α} {x y : α} {i : Nat}
    (h : (xs ++ [y])[i]? = some x) : xs[i]? = some x ∨ i = xs.length ∧ x = y := by
  rw [List.getElem?_append] at h
  split at h
  · exact .inl h
  · rw [List.getElem?_singleton] at h
    split at h
    · exact .inr ⟨by omega, (Option.some.inj h).symm⟩
    · cases h

theorem filterMap_concat {α β : Type} (f : α → Option β) (xs : List α) (x : α) :
    (xs ++ [x]).filterMap f = xs.filterMap f ++ (f x).toList := by
  rw [List.filterMap_append]
  cases hx : f x with
  | none => rw [List.filterMap_cons_none hx]; rfl
  | some y => rw [List.filterMap_cons_some hx]; rfl

theorem Coherent.timely_accepted (hreceiver : l.hasReceiver = true) (h : u.Coherent l source)
    {d : RawDatagram} {record : Record}
    (hdue : u.due = .accepted d record :: due) :
    Hearing.Timely l.decoder source.datagrams u.heard.length ⟨record, u.counters.value⟩ := by
  have hbegins : u.past ++ [.accepted d record] <+:
      (l.start source).events.map Prod.snd := by
    rw [← h.events, hdue]
    exact (List.prefix_append_right_inj _).2 (List.prefix_append [_] due)
  have hlength : (u.past.filterMap Event.accepted?).length = u.heard.length := by
    rw [← h.heard, List.length_map]
  obtain ⟨hrecords, hgives⟩ := records_at_accepted hreceiver hbegins
  rw [hlength, ← h.counters] at hrecords hgives
  exact ⟨hrecords, hgives⟩

/-- **Every event keeps an unfolding run coherent.** -/
theorem Coherent.go (hreceiver : l.hasReceiver = true) (h : u.Coherent l source) :
    (u.step .go).Coherent l source := by
  cases hdue : u.due with
  | nil =>
    have hstep : u.step .go =
        if u.ends then { u with records := u.records.step .close } else u := by
      simp only [Unfolding.step, hdue]
    rw [hstep]
    split
    · exact h.read (h.records.step .close) rfl fun _ => hdue
    · exact h
  | cons e due =>
    have hopen : u.records.channel.closed = false := by
      rw [Bool.eq_false_iff]
      intro hclosed
      rw [h.closed hclosed] at hdue
      cases hdue
    obtain ⟨hpublished, hstays⟩ := records_write hopen e
    have hevents : u.past ++ [e] ++ due = (l.start source).events.map Prod.snd := by
      rw [← h.events, hdue, List.append_assoc]
      rfl
    have hcounters : (u.write e).counters.value = lastCounters .zero (u.past ++ [e]) := by
      rw [counters_write, h.counters, lastCounters_append]
    have hheard : (u.write e).heard.map Hearing.record =
        (u.past ++ [e]).filterMap Event.accepted? := by
      rw [heard_write, List.map_append, h.heard, filterMap_concat]
      cases e.accepted? <;> rfl
    rw [h.published, ← filterMap_concat] at hpublished
    simp only [Unfolding.step, hdue]
    refine ⟨hevents, hcounters, hpublished, hheard, coherent_write h.records e, ?_, ?_⟩
    · intro hclosed
      rw [show _ = false from hstays] at hclosed
      cases hclosed
    · -- Only a report is heard, and it is heard last.
      intro number x hx
      cases e with
      | accepted d record =>
        rcases getElem?_concat_cases hx with hold | ⟨rfl, rfl⟩
        · exact h.timely number x hold
        · exact h.timely_accepted hreceiver hdue
      | _ => exact h.timely number x hx

theorem Coherent.step (hreceiver : l.hasReceiver = true) (h : u.Coherent l source)
    (action : Action) : (u.step action).Coherent l source := by
  cases action with
  | go => exact h.go hreceiver
  | subscribe rate => exact h.read (h.records.step (.subscribe rate)) rfl h.closed
  | advance follower now => exact h.read (h.records.step (.advance follower now)) rfl h.closed
  | poll follower now => exact h.read (h.records.step (.poll follower now)) rfl h.closed

theorem Coherent.run (hreceiver : l.hasReceiver = true) (h : u.Coherent l source)
    (actions : List Action) : (u.run actions).Coherent l source := by
  induction actions generalizing u with
  | nil => exact h
  | cons action rest ih => exact ih (h.step hreceiver action)

/-! ## What is published stays -/

theorem published_step (u : Unfolding) (action : Action) :
    u.records.published <+: (u.step action).records.published := by
  cases action with
  | go =>
    simp only [step]
    split
    · split
      · exact List.prefix_refl _
      · exact List.prefix_refl _
    · rename_i e due hdue
      cases e with
      | published record =>
        simp only [write, Broadcast.step]
        split
        · exact List.prefix_refl _
        · exact List.prefix_append _ _
      | _ => exact List.prefix_refl _
  | _ => exact List.prefix_refl _

theorem published_run (u : Unfolding) (actions : List Action) :
    u.records.published <+: (u.run actions).records.published := by
  induction actions generalizing u with
  | nil => exact List.prefix_refl _
  | cons action rest ih => exact (u.published_step action).trans (ih (u.step action))

theorem Coherent.published_of_obtains (h : u.Coherent l source) (hp : u.Obtains p) :
    u.records.published[p.place]? = some p.record := by
  have hmem : p ∈ publicationsOf u.records.published := by
    rcases hp with hlatest | ⟨f, hf, hgot⟩
    · rw [h.records.holds.value] at hlatest
      exact List.mem_of_getLast? hlatest
    · have hserved := (h.records.tracks f hf).served h.records.holds
      exact List.mem_of_mem_drop (hserved.sublist.subset hgot)
  obtain ⟨i, hi⟩ := List.mem_iff_getElem?.1 hmem
  rw [publicationsOf, List.getElem?_mapIdx] at hi
  obtain ⟨record, hrecord, rfl⟩ := Option.map_eq_some_iff.1 hi
  exact hrecord

/-! ## Coming to the end -/

theorem due_run_go (u : Unfolding) (count : Nat) :
    (u.run (List.replicate count .go)).due = u.due.drop count := by
  induction count generalizing u with
  | zero => rfl
  | succ count ih =>
    rw [List.replicate_succ]
    refine (ih (u.step .go)).trans ?_
    cases hdue : u.due with
    | nil =>
      simp only [step, hdue]
      split <;> simp [hdue]
    | cons e due => simp only [step, hdue, List.drop_succ_cons]

/-- **A run comes to its end if nothing keeps it**, and then the channels hold all of it. -/
theorem exists_finished (hreceiver : l.hasReceiver = true) (h : u.Coherent l source) :
    ∃ more, (u.run more).due = [] ∧
      (u.run more).counters.value = (l.start source).counters ∧
      (u.run more).records.published = (l.start source).publications.map Prod.snd := by
  have hdue := u.due_run_go u.due.length
  rw [List.drop_length] at hdue
  have hend := h.run hreceiver (List.replicate u.due.length .go)
  have hpast := hend.events
  rw [hdue, List.append_nil] at hpast
  refine ⟨_, hdue, ?_, ?_⟩
  · rw [hend.counters, hpast, Run.counters_eq]
  · rw [hend.published, hpast, Run.publications_map_snd]

/-! ## Counted first -/

/-- **A record is counted before anybody sees it**, whatever the source answers, whenever the loop
is cancelled, and whoever reads whenever. At every moment as many records have been counted as
published, or one more. The observer finds each record counted as the last one. Whoever has got a
record, be it the latest or by following, finds it and its datagram counted whenever it then looks
at the counters. And nobody can keep the run from its end, where the channels hold all of it. -/
theorem run_counted_first (l : ReceiveLoop) (hreceiver : l.hasReceiver = true) (source : Source)
    (actions : List Action) :
    let u := (ofRun (l.start source)).run actions
    (u.records.published.length ≤ u.counters.value.records ∧
      u.counters.value.records ≤ u.records.published.length + 1) ∧
    (∀ (number : Nat) (x : Hearing), u.heard[number]? = some x →
      x.Timely l.decoder source.datagrams number) ∧
    (∀ p, u.Obtains p → ∀ more,
      let later := u.run more
      p.place + 1 ≤ later.counters.value.records ∧
        ∃ place, l.decoder.GivesAt source.datagrams place p.place p.record ∧
          place + 1 ≤ later.counters.value.datagrams) ∧
    ∃ more, (u.run more).due = [] ∧
      (u.run more).counters.value = (l.start source).counters ∧
      (u.run more).records.published = (l.start source).publications.map Prod.snd := by
  intro u
  have hcoherent : u.Coherent l source := (coherent_ofRun l source).run hreceiver actions
  refine ⟨?_, hcoherent.timely, fun p hp more => ?_, exists_finished hreceiver hcoherent⟩
  · rw [hcoherent.published, hcoherent.counters]
    exact published_le_records hreceiver hcoherent.past_isPrefix
  · intro later
    have hlater : later.Coherent l source := hcoherent.run hreceiver more
    have hpublished : later.records.published[p.place]? = some p.record := by
      obtain ⟨behind, hbehind⟩ := u.published_run more
      have hplace := hcoherent.published_of_obtains hp
      rw [← hbehind, List.getElem?_append_left (List.getElem?_eq_some_iff.1 hplace).1]
      exact hplace
    have hlength := (List.getElem?_eq_some_iff.1 hpublished).1
    obtain ⟨hcounted, -⟩ := published_le_records hreceiver hlater.past_isPrefix
    rw [hlater.published] at hpublished hlength
    rw [hlater.counters]
    exact ⟨Nat.le_trans hlength hcounted,
      exists_givesAt_published hreceiver hlater.past_isPrefix hpublished⟩

/-- Somebody comes at once, and polls when the first record has been published. -/
def eager : List Action :=
  [.subscribe .native, .go, .go, .go, .go, .go, .go, .poll 0 0]

/-- The record is counted, heard, published and got, in this order. -/
theorem run_counted_first_eager :
    let u := (ofRun (impatient.start flaky)).run eager
    impatient.hasReceiver = true ∧ u.Obtains ⟨0, ⟨[("level", .unsigned 7)], 8, 8⟩⟩ ∧
      u.heard.map (fun x => (x.counters.records, x.counters.datagrams)) = [(1, 1)] ∧
      ∀ more, 1 ≤ (u.run more).counters.value.records ∧
        ∃ place, impatient.decoder.GivesAt flaky.datagrams place 0
            ⟨[("level", .unsigned 7)], 8, 8⟩ ∧
          place + 1 ≤ (u.run more).counters.value.datagrams := by
  intro u
  have hobtains : u.Obtains ⟨0, ⟨[("level", .unsigned 7)], 8, 8⟩⟩ :=
    .inr ⟨_, List.mem_cons_self, List.mem_cons_self⟩
  exact ⟨rfl, hobtains, by decide, (run_counted_first impatient rfl flaky eager).2.2.1 _ hobtains⟩

end Unfolding

end Downlink
