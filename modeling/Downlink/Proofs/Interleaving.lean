import Downlink.Subscription

/-!
# Subscribers between publications

A poll of a subscription looks at the channel several times, and between any two looks something
may be published or the channel may be closed. So a poll is taken apart here into advances, each of
which touches the channel once: it asks for a change, or reads the record.

A poll during which nothing else happens is some advances one after another
(`Follower.poll_eq_advances`). A system of a channel and its followers makes its steps in any order
(`Broadcast.step`).
-/

namespace Downlink

namespace LatestRecords

/-! ## Single looks -/

/-- One look of a stream that may have noticed that the channel is open, or closed, and has not read
since: it reads then, and else asks for a change. -/
def ask (s : LatestRecords) (noticed : Option Bool) (w : RecordChannel) :
    Option (Poll Publication) × LatestRecords × Option Bool :=
  match noticed with
  | some isOpen =>
    let (told, s) := s.read w isOpen
    (told, s, none)
  | none =>
    if s.finished then (some .ended, s, none)
    else
      match s.receiver.changed w with
      | .waiting => (some .waiting, s, none)
      | .changed => (none, s, some true)
      | .closed => (none, s, some false)

variable {w : RecordChannel} {s t u : LatestRecords} {noticed : Option Bool} {p : Poll Publication}

/-- What a stream tells after looking as often as it takes. -/
inductive Tells (w : RecordChannel) :
    LatestRecords → Option Bool → Poll Publication → LatestRecords → Prop
  | now {s t : LatestRecords} {noticed : Option Bool} {p : Poll Publication}
      (h : s.ask noticed w = (some p, t, none)) : Tells w s noticed p t
  | later {s t u : LatestRecords} {noticed later? : Option Bool} {p : Poll Publication}
      (h : s.ask noticed w = (none, t, later?)) (rest : Tells w t later? p u) : Tells w s noticed p u

theorem ask_of_finished (hfinished : s.finished = true) :
    s.ask none w = (some .ended, s, none) := by
  simp [ask, hfinished]

theorem ask_of_waiting (hfinished : s.finished = false)
    (hchange : s.receiver.changed w = .waiting) : s.ask none w = (some .waiting, s, none) := by
  simp [ask, hfinished, hchange]

theorem ask_of_changed (hfinished : s.finished = false)
    (hchange : s.receiver.changed w = .changed) : s.ask none w = (none, s, some true) := by
  simp [ask, hfinished, hchange]

theorem ask_of_closed (hfinished : s.finished = false)
    (hchange : s.receiver.changed w = .closed) : s.ask none w = (none, s, some false) := by
  simp [ask, hfinished, hchange]

theorem tells_of_look (hfinished : s.finished = false) (hlook : s.look w = (some p, t)) :
    Tells w s none p t := by
  cases hchange : s.receiver.changed w with
  | waiting =>
    simp only [look, hchange, Prod.mk.injEq, Option.some.injEq] at hlook
    obtain ⟨rfl, rfl⟩ := hlook
    exact .now (ask_of_waiting hfinished hchange)
  | changed =>
    simp only [look, hchange] at hlook
    exact .later (ask_of_changed hfinished hchange) (.now (by simp [ask, hlook]))
  | closed =>
    simp only [look, hchange] at hlook
    exact .later (ask_of_closed hfinished hchange) (.now (by simp [ask, hlook]))

theorem look_eq_none (hlook : s.look w = (none, t)) :
    s.receiver.changed w = .changed ∧ s.read w true = (none, t) ∧
      t.receiver = .markSeen w ∧ t.finished = false := by
  cases hchange : s.receiver.changed w with
  | waiting => simp [look, hchange] at hlook
  | closed =>
    simp only [look, hchange, read] at hlook
    cases hunseen : s.unseen w <;> simp [hunseen] at hlook
  | changed =>
    simp only [look, hchange] at hlook
    refine ⟨rfl, hlook, ?_⟩
    simp only [read] at hlook
    cases hunseen : s.unseen w <;> simp [hunseen] at hlook
    subst hlook
    exact ⟨rfl, rfl⟩

theorem look_of_seen (hseen : s.receiver = .markSeen w) :
    ∃ p t, s.look w = (some p, t) ∧ (s.unseen w = none → p = .waiting ∨ p = .ended) := by
  have hchange : s.receiver.changed w = if w.closed then .closed else .waiting := by
    rw [hseen]
    simp [Watch.Receiver.changed, Watch.Receiver.markSeen]
  cases hclosed : w.closed with
  | false =>
    rw [hclosed] at hchange
    exact ⟨.waiting, s, by simp [look, hchange], fun _ => .inl rfl⟩
  | true =>
    rw [hclosed] at hchange
    cases hunseen : s.unseen w with
    | none => exact ⟨.ended, ⟨.markSeen w, s.last, true⟩, by simp [look, hchange, read, hunseen],
        fun _ => .inr rfl⟩
    | some p => exact ⟨.item p, ⟨.markSeen w, s.last, true⟩, by simp [look, hchange, read, hunseen],
        fun h => by cases h⟩

theorem poll_of_look (hfinished : s.finished = false) (hlook : s.look w = (some p, t)) :
    s.poll w = (p, t) := by
  simp [poll, hfinished, hlook]

/-- **A poll tells what a stream tells after looking as often as it takes.** -/
theorem poll_tells (s : LatestRecords) (w : RecordChannel) :
    Tells w s none (s.poll w).1 (s.poll w).2 := by
  cases hfinished : s.finished with
  | true =>
    have hpoll : s.poll w = (.ended, s) := by
      simp [poll, hfinished]
    rw [hpoll]
    exact .now (ask_of_finished hfinished)
  | false =>
    rcases hlook : s.look w with ⟨_ | p, t⟩
    · obtain ⟨hchange, hread, hseen, ht⟩ := look_eq_none hlook
      obtain ⟨p, u, hagain, -⟩ := look_of_seen hseen
      have hpoll : s.poll w = (p, u) := by
        simp [poll, hfinished, hlook, hagain]
      rw [hpoll]
      refine .later (ask_of_changed hfinished hchange) (.later (t := t) ?_ (tells_of_look ht hagain))
      simp [ask, hread]
    · rw [poll_of_look hfinished hlook]
      exact tells_of_look hfinished hlook

theorem look_item {a : Publication} (hlook : s.look w = (some (.item a), t)) :
    t.finished = true ∨ t.finished = false ∧ t.receiver = .markSeen w ∧ t.unseen w = none := by
  cases hchange : s.receiver.changed w with
  | waiting => simp [look, hchange] at hlook
  | closed =>
    simp only [look, hchange, read] at hlook
    cases hunseen : s.unseen w <;> simp [hunseen] at hlook
    obtain ⟨rfl, rfl⟩ := hlook
    exact .inl rfl
  | changed =>
    simp only [look, hchange, read] at hlook
    cases hunseen : s.unseen w <;> simp [hunseen] at hlook
    obtain ⟨rfl, rfl⟩ := hlook
    refine .inr ⟨rfl, rfl, ?_⟩
    obtain ⟨hvalue, -⟩ := Option.filter_eq_some_iff.1 hunseen
    simp [unseen, hvalue]

theorem poll_item {a : Publication} (hpoll : s.poll w = (.item a, t)) :
    ∃ u : LatestRecords, u.look w = (some (.item a), t) := by
  cases hfinished : s.finished with
  | true => simp [poll, hfinished] at hpoll
  | false =>
    rcases hlook : s.look w with ⟨_ | p, u⟩
    · obtain ⟨-, -, hseen, -⟩ := look_eq_none hlook
      obtain ⟨p, v, hagain, -⟩ := look_of_seen hseen
      simp [poll, hfinished, hlook, hagain] at hpoll
      obtain ⟨rfl, rfl⟩ := hpoll
      exact ⟨u, hagain⟩
    · rw [poll_of_look hfinished hlook] at hpoll
      obtain ⟨rfl, rfl⟩ := Prod.mk.inj hpoll
      exact ⟨s, hlook⟩

theorem poll_of_poll_item {a : Publication} (hpoll : s.poll w = (.item a, t)) :
    ∃ p u, t.poll w = (p, u) ∧ (p = .waiting ∨ p = .ended) := by
  obtain ⟨s', hlook⟩ := poll_item hpoll
  rcases look_item hlook with hfinished | ⟨hfinished, hseen, hunseen⟩
  · exact ⟨.ended, t, by simp [poll, hfinished], .inr rfl⟩
  · obtain ⟨p, u, hagain, hp⟩ := look_of_seen hseen
    exact ⟨p, u, poll_of_look hfinished hagain, hp hunseen⟩

end LatestRecords

/-! ## Followers -/

/-- A subscriber and all that it got. -/
structure Follower where
  /-- The number of records published before it came. -/
  since : Nat
  subscription : Subscription
  /-- Whether the channel was open when it was asked for a change; none if it was read since. -/
  noticed : Option Bool
  got : List Publication
  ended : Bool

namespace Follower

/-- A subscriber that comes when so many records were published. -/
def new (since : Nat) (rate : UpdateRate) : Follower :=
  ⟨since, .new rate, none, [], false⟩

/-- Gets what a poll gives. -/
def get (f : Follower) : Poll Publication → Follower
  | .item p => { f with got := f.got ++ [p] }
  | .waiting => f
  | .ended => { f with ended := true }

/-- Gets what a throttle gives. -/
def getThrottled (f : Follower) (t : Throttle Publication) (now : Nat) : Follower :=
  let (given, t) := t.give now
  { f with subscription := ⟨f.subscription.records, some t⟩ }.get given

/-- Passes on what a throttle makes of what its source told. -/
def hear (f : Follower) (t : Throttle Publication) (now : Nat) : Poll Publication → Follower
  | .item p => { f with subscription := ⟨f.subscription.records, some { t with held := some p }⟩ }
  | .waiting => f.getThrottled t now
  | .ended =>
    { f with subscription := ⟨f.subscription.records, some { t with sourceEnded := true }⟩ }

/-- The part of a poll that touches the channel once, at a time in nanoseconds. -/
def advance (f : Follower) (w : RecordChannel) (now : Nat) : Follower :=
  match f.subscription.throttle with
  | none =>
    let (told, records, noticed) := f.subscription.records.ask f.noticed w
    let f := { f with subscription := ⟨records, none⟩, noticed }
    told.elim f f.get
  | some t =>
    if t.sourceEnded then f.getThrottled t now
    else
      let (told, records, noticed) := f.subscription.records.ask f.noticed w
      let f := { f with subscription := ⟨records, some t⟩, noticed }
      told.elim f (f.hear t now)

/-- A poll during which nothing else happens, at a time in milliseconds. It cannot begin within
another one. -/
def poll (f : Follower) (w : RecordChannel) (now : Nat) : Follower :=
  if f.noticed.isSome then f
  else
    let (given, subscription) := f.subscription.poll w now
    { f with subscription }.get given

/-! ### Polls as advances -/

/-- Advances at some times, during which nothing else happens. -/
def advances (w : RecordChannel) (times : List Nat) (f : Follower) : Follower :=
  times.foldl (fun f now => f.advance w now) f

variable {w : RecordChannel} {now : Nat} {f g h : Follower}

/-- Whether some advances at one time lead from one follower to another. -/
def Reaches (w : RecordChannel) (now : Nat) (f g : Follower) : Prop :=
  ∃ n, advances w (List.replicate n now) f = g

theorem Reaches.refl : Reaches w now f f := ⟨0, rfl⟩

theorem Reaches.head (hrest : Reaches w now (f.advance w now) g) : Reaches w now f g := by
  obtain ⟨n, rfl⟩ := hrest
  exact ⟨n + 1, rfl⟩

theorem Reaches.trans (hfirst : Reaches w now f g) (hthen : Reaches w now g h) :
    Reaches w now f h := by
  obtain ⟨n, hn⟩ := hfirst
  induction n generalizing f with
  | zero =>
    have hsame : f = g := hn
    rwa [hsame]
  | succ n ih => exact .head (ih hn)

section Tells

variable {s u : LatestRecords} {t : Throttle Publication} {noticed : Option Bool}
  {p : Poll Publication} {since : Nat} {got : List Publication} {ended : Bool}

theorem reaches_of_tells (htells : s.Tells w noticed p u) :
    Reaches w now ⟨since, ⟨s, none⟩, noticed, got, ended⟩
      (get ⟨since, ⟨u, none⟩, none, got, ended⟩ p) := by
  induction htells with
  | now h =>
    refine .head ?_
    simp only [advance, h]
    exact .refl
  | later h _ ih =>
    refine .head ?_
    simp only [advance, h]
    exact ih

theorem reaches_of_tells_throttled (hsource : t.sourceEnded = false)
    (htells : s.Tells w noticed p u) :
    Reaches w now ⟨since, ⟨s, some t⟩, noticed, got, ended⟩
      (hear ⟨since, ⟨u, some t⟩, none, got, ended⟩ t now p) := by
  induction htells with
  | now h =>
    refine .head ?_
    simp only [advance, hsource, h]
    exact .refl
  | later h _ ih =>
    refine .head ?_
    simp only [advance, hsource, h]
    exact ih

theorem reaches_getThrottled (hsource : t.sourceEnded = true) :
    Reaches w now ⟨since, ⟨s, some t⟩, noticed, got, ended⟩
      (getThrottled ⟨since, ⟨s, some t⟩, noticed, got, ended⟩ t now) := by
  refine .head ?_
  simp only [advance, hsource]
  exact .refl

theorem reaches_burst (hsource : t.sourceEnded = false) :
    Reaches w now ⟨since, ⟨s, some t⟩, none, got, ended⟩
      (getThrottled ⟨since, ⟨(s.burst w).2, some t⟩, none, got, ended⟩
        (t.take (s.burst w).1) now) := by
  have htells := s.poll_tells w
  rcases hpoll : s.poll w with ⟨p, u⟩
  rw [hpoll] at htells
  refine (reaches_of_tells_throttled hsource htells).trans ?_
  cases p with
  | waiting =>
    have htake : t.take (s.burst w).1 = t := by
      simp [LatestRecords.burst, hpoll, Throttle.take, Burst.none, ← hsource]
    rw [htake]
    simp only [LatestRecords.burst, hpoll]
    exact .refl
  | ended =>
    have htake : t.take (s.burst w).1 = { t with sourceEnded := true } := by
      simp [LatestRecords.burst, hpoll, Throttle.take]
    rw [htake]
    simp only [LatestRecords.burst, hpoll]
    exact reaches_getThrottled rfl
  | item a =>
    obtain ⟨p, v, hagain, hp⟩ := LatestRecords.poll_of_poll_item hpoll
    have htells := u.poll_tells w
    rw [hagain] at htells
    have hheld : ({ t with held := some a } : Throttle Publication).sourceEnded = false := hsource
    refine (reaches_of_tells_throttled hheld htells).trans ?_
    rcases hp with rfl | rfl
    · have htake : t.take (s.burst w).1 = { t with held := some a } := by
        simp [LatestRecords.burst, hpoll, hagain, Throttle.take, ← hsource]
      rw [htake]
      simp only [LatestRecords.burst, hpoll, hagain]
      exact .refl
    · have htake : t.take (s.burst w).1 = { t with held := some a, sourceEnded := true } := by
        simp [LatestRecords.burst, hpoll, hagain, Throttle.take]
      rw [htake]
      simp only [LatestRecords.burst, hpoll, hagain]
      exact reaches_getThrottled rfl

end Tells

/-- **A poll is some advances at one time, during which nothing else happens.** -/
theorem poll_eq_advances (f : Follower) (w : RecordChannel) (now : Nat) :
    ∃ n, f.poll w now = advances w (List.replicate n (now * 1000000)) f := by
  suffices hreaches : Reaches w (now * 1000000) f (f.poll w now) by
    obtain ⟨n, hn⟩ := hreaches
    exact ⟨n, hn.symm⟩
  obtain ⟨since, ⟨records, throttle⟩, noticed, got, ended⟩ := f
  cases noticed with
  | some isOpen => exact .refl
  | none =>
    cases throttle with
    | none => exact reaches_of_tells (records.poll_tells w)
    | some t =>
      cases hsource : t.sourceEnded with
      | true =>
        have hpoll : t.poll (LatestRecords.burst w) records (now * 1000000) =
            ((t.give (now * 1000000)).1, (t.give (now * 1000000)).2, records) := by
          simp [Throttle.poll, hsource]
        simp only [poll, Subscription.poll, hpoll]
        exact reaches_getThrottled hsource
      | false =>
        simp only [poll, Subscription.poll, Throttle.poll, hsource]
        exact reaches_burst hsource

end Follower

end Downlink
