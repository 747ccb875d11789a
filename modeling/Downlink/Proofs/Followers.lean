import Downlink.Proofs.Following

/-!
# What a follower is promised

What a follower knows it has got, or its throttle holds it for the next time its gate opens; so it
tracks the channel as its stream does (`Follower.Tracks`), and that is all that has to be kept for
what it is promised (`Follower.Served`).

Once the channel is closed, a follower that goes on polling comes to its end
(`Follower.Tracks.exists_ended`).
-/

namespace Downlink

/-! ## Throttles -/

theorem Throttle.give_cases {α : Type} (t : Throttle α) (now : Nat) :
    (t.give now).2.sourceEnded = t.sourceEnded ∧
      ((∃ a, (t.give now).1 = .item a ∧ t.held = some a ∧ (t.give now).2.held = none) ∨
        ((t.give now).1 = .waiting ∧ (t.give now).2.held = t.held) ∨
        ((t.give now).1 = .ended ∧ (t.give now).2.held = t.held ∧ t.held = none ∧
          t.sourceEnded = true)) := by
  cases hopen : t.isOpen now with
  | true =>
    cases hheld : t.held with
    | none => cases hend : t.sourceEnded <;> simp [give, hopen, hheld, hend]
    | some a => simp [give, hopen, hheld]
  | false =>
    obtain ⟨opensAt, hopensAt⟩ : ∃ opensAt, t.opensAt = some opensAt := by
      cases hopensAt : t.opensAt with
      | none => simp [isOpen, hopensAt] at hopen
      | some opensAt => exact ⟨opensAt, rfl⟩
    cases hheld : t.held with
    | none => cases hend : t.sourceEnded <;> simp [give, hopen, hopensAt, hheld, hend]
    | some a => simp [give, hopen, hopensAt, hheld]

namespace Follower

/-! ## Followers -/

variable {w : RecordChannel} {published : List Record} {f : Follower} {t : Throttle Publication}

/-- What a follower has got, and what its throttle holds for it. -/
def known (f : Follower) : List Publication :=
  f.got ++ (f.subscription.throttle.bind Throttle.held).toList

/-- A follower tracks a channel. Its throttle is at the end only when its stream is finished, and it
is at the end only when its throttle is and holds nothing. -/
structure Tracks (w : RecordChannel) (published : List Record) (f : Follower) : Prop where
  records : f.subscription.records.Tracks w published f.since f.known f.noticed
  sourceEnded : ∀ t, f.subscription.throttle = some t →
    (t.sourceEnded = true → f.subscription.records.finished = true) ∧
      (f.ended = true → t.sourceEnded = true)
  ended : f.ended = true → f.subscription.records.finished = true ∧ f.known = f.got

section Components

variable {since : Nat} {records : LatestRecords} {noticed : Option Bool} {got : List Publication}
  {ended : Bool}

theorem tracks_native_iff :
    Tracks w published ⟨since, ⟨records, none⟩, noticed, got, ended⟩ ↔
      records.Tracks w published since got noticed ∧ (ended = true → records.finished = true) := by
  have hknown : known ⟨since, ⟨records, none⟩, noticed, got, ended⟩ = got := List.append_nil got
  constructor
  · intro h
    have hrecords := h.records
    rw [hknown] at hrecords
    exact ⟨hrecords, fun hended => (h.ended hended).1⟩
  · rintro ⟨hrecords, hended⟩
    refine ⟨?_, (fun t ht => by cases ht), fun h => ⟨hended h, hknown⟩⟩
    rw [hknown]
    exact hrecords

theorem tracks_throttled_iff :
    Tracks w published ⟨since, ⟨records, some t⟩, noticed, got, ended⟩ ↔
      records.Tracks w published since (got ++ t.held.toList) noticed ∧
        (t.sourceEnded = true → records.finished = true) ∧
        (ended = true → t.sourceEnded = true ∧ t.held = none) := by
  have hheld : got ++ t.held.toList = got ↔ t.held = none := by
    cases t.held <;> simp
  constructor
  · intro h
    obtain ⟨hfinished, hsource⟩ := h.sourceEnded t rfl
    exact ⟨h.records, hfinished, fun hended => ⟨hsource hended, hheld.1 (h.ended hended).2⟩⟩
  · rintro ⟨hrecords, hfinished, hended⟩
    refine ⟨hrecords, ?_, fun h => ⟨hfinished (hended h).1, hheld.2 (hended h).2⟩⟩
    intro t' ht'
    obtain rfl := Option.some.inj ht'
    exact ⟨hfinished, fun h => (hended h).1⟩

end Components

theorem tracks_new (w : RecordChannel) (published : List Record) (rate : UpdateRate) :
    Tracks w published (new published.length rate) := by
  have hrecords := LatestRecords.tracks_new w published
  cases hrate : rate.interval? with
  | none =>
    simp only [new, Subscription.new, hrate]
    exact tracks_native_iff.2 ⟨hrecords, fun h => by cases h⟩
  | some period =>
    simp only [new, Subscription.new, hrate]
    exact tracks_throttled_iff.2 ⟨hrecords, (fun h => by cases h), fun h => by cases h⟩

namespace Tracks

theorem extend (h : f.Tracks w published) (more : List Record)
    (hmore : w.closed = true → more = []) {v : RecordChannel}
    (hclosed : w.closed = true → v.closed = true) : f.Tracks v (published ++ more) :=
  ⟨h.records.extend more hmore hclosed, h.sourceEnded, h.ended⟩

theorem publish (h : f.Tracks w published) (hopen : w.closed = false) (record : Record) :
    f.Tracks (w.publish record) (published ++ [record]) := by
  refine h.extend [record] ?_ ?_
  all_goals
    intro hclosed
    rw [hopen] at hclosed
    cases hclosed

theorem close (h : f.Tracks w published) : f.Tracks w.close published := by
  have hmore : f.Tracks w.close (published ++ []) := h.extend [] (fun _ => rfl) (fun _ => rfl)
  rw [List.append_nil] at hmore
  exact hmore

theorem getThrottled (h : f.Tracks w published) (ht : f.subscription.throttle = some t)
    (now : Nat) : (f.getThrottled t now).Tracks w published := by
  obtain ⟨since, ⟨records, throttle⟩, noticed, got, ended⟩ := f
  obtain rfl : throttle = some t := ht
  obtain ⟨hrecords, hsourceEnded, hended⟩ := tracks_throttled_iff.1 h
  obtain ⟨hsource, ⟨a, hgiven, hheld, hleft⟩ | ⟨hgiven, hleft⟩ | ⟨hgiven, hleft, hheld, hend⟩⟩ :=
    t.give_cases now
  · simp only [Follower.getThrottled, hgiven, get]
    rw [tracks_throttled_iff, hsource, hleft]
    refine ⟨?_, hsourceEnded, fun hend => ⟨(hended hend).1, rfl⟩⟩
    rw [hheld] at hrecords
    simpa using hrecords
  · simp only [Follower.getThrottled, hgiven, get]
    rw [tracks_throttled_iff, hsource, hleft]
    exact ⟨hrecords, hsourceEnded, hended⟩
  · simp only [Follower.getThrottled, hgiven, get]
    rw [tracks_throttled_iff, hsource, hleft]
    exact ⟨hrecords, hsourceEnded, fun _ => ⟨hend, hheld⟩⟩

theorem hear {since : Nat} {records : LatestRecords} {noticed : Option Bool}
    {got : List Publication} {ended : Bool} {p : Poll Publication}
    (hrecords : records.Tracks w published since
      (got ++ t.held.toList ++ LatestRecords.told (some p)) noticed)
    (hp : some p = some .ended → records.finished = true) (hsource : t.sourceEnded = false)
    (hended : ended = false) (now : Nat) :
    Tracks w published (Follower.hear ⟨since, ⟨records, some t⟩, noticed, got, ended⟩ t now p) := by
  subst hended
  cases p with
  | item p =>
    simp only [Follower.hear]
    rw [tracks_throttled_iff]
    refine ⟨hrecords.forget ?_ ?_, fun hend => ?_, fun hend => by cases hend⟩
    · exact (List.sublist_append_left got _).append (List.Sublist.refl _)
    · simp [LatestRecords.told]
    · rw [hsource] at hend
      cases hend
  | waiting =>
    simp only [LatestRecords.told, List.append_nil] at hrecords
    refine getThrottled (tracks_throttled_iff.2 ⟨hrecords, fun hend => ?_, ?_⟩) rfl now
    · rw [hsource] at hend
      cases hend
    · exact fun hend => by cases hend
  | ended =>
    simp only [LatestRecords.told, List.append_nil] at hrecords
    simp only [Follower.hear]
    rw [tracks_throttled_iff]
    exact ⟨hrecords, fun _ => hp rfl, fun hend => by cases hend⟩

theorem advance (h : f.Tracks w published) (hw : w.Holds published) (now : Nat) :
    (f.advance w now).Tracks w published := by
  obtain ⟨since, ⟨records, throttle⟩, noticed, got, ended⟩ := f
  cases throttle with
  | none =>
    obtain ⟨hrecords, hended⟩ := tracks_native_iff.1 h
    have hlast := fun hend => hrecords.told_ended (hended hend)
    obtain ⟨hasked, hend⟩ := hrecords.ask hw
    rcases hask : records.ask noticed w with ⟨_ | _ | _ | _, records', noticed'⟩
    all_goals
      rw [hask] at hasked hend hlast
      simp only [LatestRecords.told, List.append_nil] at hasked
      simp only [Follower.advance, hask]
      refine tracks_native_iff.2 ⟨hasked, fun h => ?_⟩
    · cases hlast h
    · cases hlast h
    · cases hlast h
    · exact hend rfl
  | some t =>
    obtain ⟨hrecords, hsourceEnded, hended⟩ := tracks_throttled_iff.1 h
    cases hsource : t.sourceEnded with
    | true =>
      simp only [Follower.advance, hsource]
      exact getThrottled h rfl now
    | false =>
      have hgoing : ended = false := by
        rw [Bool.eq_false_iff]
        intro hend
        rw [(hended hend).1] at hsource
        cases hsource
      obtain ⟨hasked, hend⟩ := hrecords.ask hw
      rcases hask : records.ask noticed w with ⟨_ | p, records', noticed'⟩
      · rw [hask] at hasked
        simp only [LatestRecords.told, List.append_nil] at hasked
        simp only [Follower.advance, hsource, hask]
        refine tracks_throttled_iff.2 ⟨hasked, fun hend => ?_, hended⟩
        rw [hsource] at hend
        cases hend
      · rw [hask] at hasked hend
        simp only [Follower.advance, hsource, hask]
        exact hear hasked hend hsource hgoing now

theorem advances (h : f.Tracks w published) (hw : w.Holds published) (times : List Nat) :
    (Follower.advances w times f).Tracks w published := by
  induction times generalizing f with
  | nil => exact h
  | cons now rest ih => exact ih (h.advance hw now)

theorem poll (h : f.Tracks w published) (hw : w.Holds published) (now : Nat) :
    (f.poll w now).Tracks w published := by
  obtain ⟨count, hpoll⟩ := f.poll_eq_advances w now
  rw [hpoll]
  exact h.advances hw _

end Tracks

/-! ## Coming to the end -/

theorem advance_of_sourceEnded (ht : f.subscription.throttle = some t)
    (hsource : t.sourceEnded = true) (now : Nat) : f.advance w now = f.getThrottled t now := by
  simp [advance, ht, hsource]

theorem ended_of_empty (ht : f.subscription.throttle = some t) (hsource : t.sourceEnded = true)
    (hheld : t.held = none) (now : Nat) : (f.advance w now).ended = true := by
  rw [advance_of_sourceEnded ht hsource, getThrottled]
  have hgiven : (t.give now).1 = .ended := by
    cases hopen : t.isOpen now <;> cases hopensAt : t.opensAt <;>
      simp [Throttle.give, hopen, hopensAt, hheld, hsource]
  simp only [hgiven, get]

theorem exists_ended_of_sourceEnded (ht : f.subscription.throttle = some t)
    (hsource : t.sourceEnded = true) : ∃ times, (advances w times f).ended = true := by
  cases hheld : t.held with
  | none => exact ⟨[0], ended_of_empty ht hsource hheld 0⟩
  | some a =>
    have hopen : t.isOpen (t.opensAt.getD 0) = true := by
      cases hopensAt : t.opensAt <;> simp [Throttle.isOpen, hopensAt]
    have hgiven : (f.advance w (t.opensAt.getD 0)).subscription.throttle =
        some { t with held := none, opensAt := some (t.opensAt.getD 0 + t.period) } := by
      rw [advance_of_sourceEnded ht hsource]
      simp [getThrottled, Throttle.give, hopen, hheld, get]
    exact ⟨[t.opensAt.getD 0, 0], ended_of_empty hgiven hsource rfl 0⟩

/-- **A follower of a closed channel that goes on polling comes to its end.** -/
theorem Tracks.exists_ended (h : f.Tracks w published) (hw : w.Holds published)
    (hclosed : w.closed = true) : ∃ times, (Follower.advances w times f).ended = true := by
  -- On the looks that its stream has to go; behind them a throttle may hold a record back.
  induction hgo : f.subscription.records.toGo w f.noticed using Nat.strongRecOn generalizing f with
  | ind go ih =>
    have hnext : (f.advance w 0).subscription.records.toGo w (f.advance w 0).noticed < go →
        ∃ times, (Follower.advances w times f).ended = true := by
      intro hlt
      obtain ⟨times, htimes⟩ := ih _ hlt (h.advance hw 0) rfl
      exact ⟨0 :: times, htimes⟩
    have hlook := h.records.ask_toGo hw hclosed
    rw [hgo] at hlook
    obtain ⟨since, ⟨records, throttle⟩, noticed, got, ended⟩ := f
    rcases hask : records.ask noticed w with ⟨told, records', noticed'⟩
    rw [hask] at hlook
    cases throttle with
    | none =>
      rcases hlook with htold | ⟨-, hlt⟩
      · obtain rfl : told = some .ended := htold
        exact ⟨[0], by simp [Follower.advances, Follower.advance, hask, get]⟩
      · refine hnext ?_
        rcases told with _ | _ | _ | _
        all_goals
          simp only [Follower.advance, hask]
          exact hlt
    | some t =>
      cases hsource : t.sourceEnded with
      | true => exact exists_ended_of_sourceEnded rfl hsource
      | false =>
        rcases hlook with htold | ⟨hwaiting, hlt⟩
        · obtain rfl : told = some .ended := htold
          have hend : (Follower.advance ⟨since, ⟨records, some t⟩, noticed, got, ended⟩ w
              0).subscription.throttle = some { t with sourceEnded := true } := by
            simp [Follower.advance, hsource, hask, Follower.hear]
          obtain ⟨times, htimes⟩ := exists_ended_of_sourceEnded hend rfl
          exact ⟨0 :: times, htimes⟩
        · refine hnext ?_
          rcases told with _ | a | _ | _
          · simp only [Follower.advance, hsource, hask]
            exact hlt
          · simp only [Follower.advance, hsource, hask]
            exact hlt
          · exact absurd rfl hwaiting
          · simp only [Follower.advance, hsource, hask]
            exact hlt

/-! ## What is promised to a follower -/

/-- What a follower may rely on, whatever happened: it gets publications in their order, each once,
from the one on that was the latest when it came. It comes to the end when the channel is closed and
not before, and then the last publication is the last that it got. -/
structure Served (w : RecordChannel) (published : List Record) (f : Follower) : Prop where
  sublist : f.got.Sublist ((publicationsOf published).drop (f.since - 1))
  increasing : f.got.Pairwise fun p q => p.place < q.place
  distinct : f.got.Nodup
  closed : f.ended = true → w.closed = true
  complete : f.ended = true → f.got.getLast? = (publicationsOf published).getLast?
  empty : f.ended = true → (f.got = [] ↔ published = [])
  comesToEnd : w.closed = true → ∃ times, (advances w times f).ended = true

theorem Tracks.served (h : f.Tracks w published) (hw : w.Holds published) :
    f.Served w published := by
  have hsublist : f.got.Sublist ((publicationsOf published).drop (f.since - 1)) := by
    have hgot : f.got.Sublist f.known := List.sublist_append_left _ _
    exact (hgot.trans h.records.sublist).trans ((List.take_sublist _ _).drop _)
  have hincreasing : f.got.Pairwise fun p q => p.place < q.place :=
    (publicationsOf_pairwise published).sublist (hsublist.trans (List.drop_sublist _ _))
  have hcomplete : f.ended = true → f.got.getLast? = (publicationsOf published).getLast? := by
    intro hended
    obtain ⟨hfinished, hknown⟩ := h.ended hended
    have hseen := (h.records.upToDate (.inr hfinished)).2
    rw [← hknown, h.records.getLast?, hseen, take_length_publicationsOf]
  refine ⟨hsublist, hincreasing, ?_, ?_, hcomplete, ?_, h.exists_ended hw⟩
  · refine hincreasing.imp fun hlt heq => ?_
    rw [heq] at hlt
    exact Nat.lt_irrefl _ hlt
  · exact fun hended => (h.records.upToDate (.inr (h.ended hended).1)).1
  · intro hended
    rw [← List.getLast?_eq_none_iff, hcomplete hended, List.getLast?_eq_none_iff, publicationsOf,
      List.mapIdx_eq_nil_iff]

end Follower

end Downlink
