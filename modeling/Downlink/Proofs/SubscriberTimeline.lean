import Downlink.Connection
import Downlink.Proofs.Followers
import Downlink.Proofs.LoopTime

/-!
# What a subscriber of a connection gets

A subscriber of a connection polls at certain moments. From one moment to the next its channel goes
on, for time never runs backwards in the loop, and every poll keeps it on its track. So it gets
records in their order, from the one on that was there when it came, and the last one before the end
(`Connection.subscribe_served`).
-/

namespace Downlink

namespace Connection

variable {c : Connection} {time later : Nat}

/-! ## Channels over time -/

/-- The records published up to a time. -/
def publishedAt (c : Connection) (time : Nat) : List Record :=
  (c.run.publications.filter (·.1 ≤ time)).map Prod.snd

theorem holds_foldl_publish (records : List Record) {w : RecordChannel} {published : List Record}
    (h : w.Holds published) :
    (records.foldl RecordChannel.publish w).Holds (published ++ records) ∧
      (records.foldl RecordChannel.publish w).closed = w.closed := by
  induction records generalizing w published with
  | nil => exact ⟨by simpa using h, rfl⟩
  | cons record rest ih =>
    obtain ⟨hrest, hclosed⟩ := ih (h.publish record)
    rw [List.append_assoc] at hrest
    exact ⟨hrest, hclosed⟩

theorem recordsAt_holds (c : Connection) (time : Nat) :
    (c.recordsAt time).Holds (c.publishedAt time) := by
  have hnew : RecordChannel.Holds (Watch.new none) [] := ⟨rfl, rfl⟩
  obtain ⟨hholds, -⟩ := holds_foldl_publish (c.publishedAt time) hnew
  unfold recordsAt
  split
  · exact ⟨hholds.version, hholds.value⟩
  · exact hholds

theorem recordsAt_closed (c : Connection) (time : Nat) :
    (c.recordsAt time).closed = c.hasEnded time := by
  have hnew : RecordChannel.Holds (Watch.new none) [] := ⟨rfl, rfl⟩
  obtain ⟨-, hclosed⟩ := holds_foldl_publish (c.publishedAt time) hnew
  unfold recordsAt
  cases hended : c.hasEnded time with
  | true => rfl
  | false => exact hclosed

theorem hasEnded_iff : c.hasEnded time = true ↔ ∃ ended, c.run.ended = some ended ∧ ended ≤ time := by
  unfold hasEnded ReceiveLoop.Run.isRunningAt
  cases c.run.ended <;> simp

/-- A connection whose loop keeps to time. -/
def Timely (c : Connection) : Prop :=
  ReceiveLoop.Timely 0 c.run.events c.run.ended

theorem timely_start (decoder : Decoder) (options : LoopOptions) (cancelAt : Option Nat)
    (source : Source) : (start decoder options cancelAt source).Timely :=
  ReceiveLoop.timely_start _ source

theorem mem_events_of_mem_publications {r : ReceiveLoop.Run} {p : Nat × Record}
    (hp : p ∈ r.publications) : (p.1, .published p.2) ∈ r.events := by
  obtain ⟨⟨t, event⟩, hevent, heq⟩ := List.mem_filterMap.1 hp
  cases event <;> simp at heq
  subst heq
  exact hevent

theorem Timely.publications_sorted (hc : c.Timely) :
    c.run.publications.Pairwise fun p q => p.1 ≤ q.1 := by
  refine List.Pairwise.filterMap _ ?_ hc.sorted
  rintro ⟨t, event⟩ ⟨u, event'⟩ hle p hp q hq
  cases event <;> simp at hp
  cases event' <;> simp at hq
  subst hp hq
  exact hle

theorem filter_le_isPrefix {α : Type} {xs : List (Nat × α)}
    (hxs : xs.Pairwise fun a b => a.1 ≤ b.1) (time : Nat) : xs.filter (·.1 ≤ time) <+: xs := by
  induction xs with
  | nil => exact List.prefix_refl _
  | cons a rest ih =>
    obtain ⟨hfirst, hrest⟩ := List.pairwise_cons.1 hxs
    by_cases ha : a.1 ≤ time
    · simp only [List.filter_cons, ha, decide_true, ↓reduceIte]
      exact List.cons_prefix_cons.2 ⟨rfl, ih hrest⟩
    · have hnone : (a :: rest).filter (·.1 ≤ time) = [] := by
        rw [List.filter_eq_nil_iff]
        intro b hb
        rcases List.mem_cons.1 hb with rfl | hb
        · simpa using ha
        · have hab := hfirst b hb
          simp only [decide_eq_true_eq]
          omega
      rw [hnone]
      exact List.nil_prefix

theorem Timely.publishedAt_isPrefix (hc : c.Timely) (time : Nat) :
    c.publishedAt time <+: c.run.publications.map Prod.snd :=
  (filter_le_isPrefix hc.publications_sorted time).map Prod.snd

theorem Timely.publishedAt_of_hasEnded (hc : c.Timely) (hended : c.hasEnded time = true) :
    c.publishedAt time = c.run.publications.map Prod.snd := by
  obtain ⟨ended, hrun, hle⟩ := hasEnded_iff.1 hended
  unfold publishedAt
  rw [List.filter_eq_self.2]
  intro p hp
  have hbefore := (hc.le_stop ended hrun).2 _ (mem_events_of_mem_publications hp)
  exact decide_eq_true (Nat.le_trans hbefore hle)

theorem Timely.publishedAt_later (hc : c.Timely) (hle : time ≤ later) :
    ∃ more, c.publishedAt later = c.publishedAt time ++ more ∧
      (c.hasEnded time = true → more = []) := by
  obtain ⟨more, hmore⟩ : c.publishedAt time <+: c.publishedAt later := by
    have hfilter : (c.run.publications.filter (·.1 ≤ later)).filter (·.1 ≤ time) =
        c.run.publications.filter (·.1 ≤ time) := by
      rw [List.filter_filter]
      congr 1
      funext p
      rw [Bool.and_eq_left_iff_imp]
      intro hp
      simp only [decide_eq_true_eq] at hp ⊢
      omega
    unfold publishedAt
    rw [← hfilter]
    exact (filter_le_isPrefix (hc.publications_sorted.filter _) time).map Prod.snd
  refine ⟨more, hmore.symm, fun hended => ?_⟩
  have hended' : c.hasEnded later = true := by
    obtain ⟨ended, hrun, hbefore⟩ := hasEnded_iff.1 hended
    exact hasEnded_iff.2 ⟨ended, hrun, Nat.le_trans hbefore hle⟩
  rw [hc.publishedAt_of_hasEnded hended, hc.publishedAt_of_hasEnded hended'] at hmore
  exact List.append_right_eq_self.1 hmore

theorem Timely.tracks_later {f : Follower} (hc : c.Timely) (hle : time ≤ later)
    (hf : f.Tracks (c.recordsAt time) (c.publishedAt time)) :
    f.Tracks (c.recordsAt later) (c.publishedAt later) := by
  obtain ⟨more, hmore, hnone⟩ := hc.publishedAt_later hle
  rw [hmore]
  rw [← recordsAt_closed] at hnone
  refine hf.extend more hnone ?_
  rw [recordsAt_closed, recordsAt_closed, hasEnded_iff, hasEnded_iff]
  rintro ⟨ended, hrun, hbefore⟩
  exact ⟨ended, hrun, Nat.le_trans hbefore hle⟩

end Connection

/-! ## Polls over time -/

namespace Follower

/-- A follower that has gone on to another one and got some records, and the end perhaps. -/
structure Proceeds (f g : Follower) (b : Burst Publication) : Prop where
  since : g.since = f.since
  noticed : g.noticed = none
  got : g.got = f.got ++ b.items
  ended : g.ended = (f.ended || b.ended)

variable {f g h : Follower} {b b' : Burst Publication} {w : RecordChannel}
  {published : List Record}

theorem Proceeds.refl (hnoticed : f.noticed = none) : f.Proceeds f .none :=
  ⟨rfl, hnoticed, (List.append_nil _).symm, (Bool.or_false _).symm⟩

theorem Proceeds.trans (hfirst : f.Proceeds g b) (hthen : g.Proceeds h b') :
    f.Proceeds h ⟨b.items ++ b'.items, b.ended || b'.ended⟩ := by
  refine ⟨hthen.since.trans hfirst.since, hthen.noticed, ?_, ?_⟩
  · rw [hthen.got, hfirst.got, List.append_assoc]
  · rw [hthen.ended, hfirst.ended, Bool.or_assoc]

theorem exists_proceeds_settle (hf : f.Tracks w published) (hw : w.Holds published)
    (hnoticed : f.noticed = none) (now limit : Nat) :
    ∃ g, g.Tracks w published ∧
      g.subscription = (Subscription.polling.settle w now limit f.subscription).2 ∧
      f.Proceeds g (Subscription.polling.settle w now limit f.subscription).1 := by
  induction limit generalizing f with
  | zero => exact ⟨f, hf, rfl, .refl hnoticed⟩
  | succ limit ih =>
    have hpolled := hf.poll hw now
    rcases hpoll : f.subscription.poll w now with ⟨given, subscription⟩
    have hgiven : f.poll w now = get { f with subscription } given := by
      simp [poll, hnoticed, hpoll]
    rw [hgiven] at hpolled
    simp only [Polling.settle, Subscription.polling, hpoll]
    cases given with
    | waiting => exact ⟨_, hpolled, rfl, rfl, hnoticed, (List.append_nil _).symm,
        (Bool.or_false _).symm⟩
    | ended => exact ⟨_, hpolled, rfl, rfl, hnoticed, (List.append_nil _).symm,
        (Bool.or_true _).symm⟩
    | item p =>
      obtain ⟨g, hg, hsubscription, hproceeds⟩ := ih hpolled hnoticed
      refine ⟨g, hg, hsubscription, hproceeds.since, hproceeds.noticed, ?_, hproceeds.ended⟩
      rw [hproceeds.got]
      exact List.append_assoc f.got [p] _

end Follower

namespace Connection

variable {c : Connection} {time : Nat} {f : Follower}

/-- The records that timed items hold, and whether they come to the end. -/
def gotten (items : List (Nat × Option Publication)) : Burst Publication :=
  ⟨items.filterMap Prod.snd, items.any (·.2.isNone)⟩

theorem gotten_append (items more : List (Nat × Option Publication)) :
    gotten (items ++ more) =
      ⟨(gotten items).items ++ (gotten more).items, (gotten items).ended || (gotten more).ended⟩ := by
  simp [gotten]

theorem gotten_timed (now : Nat) (b : Burst Publication) : gotten (Polling.timed now b) = b := by
  obtain ⟨items, ended⟩ := b
  cases ended <;> simp [gotten, Polling.timed, List.filterMap_map, Function.comp_def]

theorem Timely.exists_proceeds_follow (hc : c.Timely) (limit : Nat) (times : List Nat)
    (htimes : (time :: times).Pairwise (· ≤ ·))
    (hf : f.Tracks (c.recordsAt time) (c.publishedAt time)) (hnoticed : f.noticed = none) :
    ∃ g last, time ≤ last ∧ g.Tracks (c.recordsAt last) (c.publishedAt last) ∧
      f.Proceeds g (gotten (Subscription.polling.follow limit f.subscription
        (times.map fun now => (now, c.recordsAt now)))) := by
  induction times generalizing time f with
  | nil => exact ⟨f, time, Nat.le_refl _, hf, .refl hnoticed⟩
  | cons now rest ih =>
    obtain ⟨hfirst, hrest⟩ := List.pairwise_cons.1 htimes
    have hle := hfirst now List.mem_cons_self
    have hholds := c.recordsAt_holds now
    -- The follower goes on to the rest, if it does, from wherever it is now.
    have hgoOn : ∀ {h : Follower} {items : List (Nat × Option Publication)},
        h.Tracks (c.recordsAt now) (c.publishedAt now) → f.Proceeds h (gotten items) →
        ∃ g last, time ≤ last ∧ g.Tracks (c.recordsAt last) (c.publishedAt last) ∧
          f.Proceeds g (gotten (items ++ Subscription.polling.follow limit h.subscription
            (rest.map fun now => (now, c.recordsAt now)))) := by
      intro h items hh hfh
      obtain ⟨g, last, hlast, hg, hhg⟩ := ih hrest hh hfh.noticed
      rw [gotten_append]
      exact ⟨g, last, Nat.le_trans hle hlast, hg, hfh.trans hhg⟩
    obtain ⟨g, hg, hgs, hfg⟩ :=
      Follower.exists_proceeds_settle (hc.tracks_later hle hf) hholds hnoticed now limit
    rcases hsettle : Subscription.polling.settle (c.recordsAt now) now limit f.subscription
      with ⟨b, s⟩
    rw [hsettle] at hgs hfg
    obtain rfl : g.subscription = s := hgs
    have hfg' : f.Proceeds g (gotten (Polling.timed now b)) := by
      rw [gotten_timed]
      exact hfg
    rw [List.map_cons, Polling.follow, hsettle]
    simp only
    split
    · exact ⟨g, now, hle, hg, hfg'⟩
    · split
      · rename_i wake _
        split
        · obtain ⟨h, hh, hhs, hgh⟩ :=
            Follower.exists_proceeds_settle hg hholds hfg.noticed wake limit
          rcases hagain : Subscription.polling.settle (c.recordsAt now) wake limit g.subscription
            with ⟨b', s'⟩
          rw [hagain] at hhs hgh
          obtain rfl : h.subscription = s' := hhs
          have hfh : f.Proceeds h (gotten (Polling.timed now b ++ Polling.timed wake b')) := by
            rw [gotten_append, gotten_timed, gotten_timed]
            exact hfg.trans hgh
          simp only
          split
          · rw [List.append_nil]
            exact ⟨h, now, hle, hh, hfh⟩
          · exact hgoOn hh hfh
        · exact hgoOn hg hfg'
      · exact hgoOn hg hfg'

/-! ## Moments -/

theorem eraseRepsBy_loop_sublist {α : Type} (r : α → α → Bool) (a : α) (xs earlier : List α) :
    (List.eraseRepsBy.loop r a xs earlier).Sublist (earlier.reverse ++ a :: xs) := by
  induction xs generalizing a earlier with
  | nil => simp [List.eraseRepsBy.loop]
  | cons b rest ih =>
    rw [List.eraseRepsBy.loop]
    split
    · refine (ih a earlier).trans ?_
      exact (List.Sublist.refl _).append (((List.sublist_cons_self b rest)).cons_cons a)
    · have hrest := ih b (a :: earlier)
      rw [List.reverse_cons, List.append_assoc] at hrest
      exact hrest

theorem eraseReps_sublist (xs : List Nat) : xs.eraseReps.Sublist xs := by
  cases xs with
  | nil => exact List.Sublist.refl _
  | cons a rest => exact eraseRepsBy_loop_sublist _ a rest []

theorem Timely.moments_sorted (hc : c.Timely) (since : Nat) :
    (since :: ((c.run.publications.map Prod.fst ++ c.run.ended.toList).filter
      (since < ·)).eraseReps).Pairwise (· ≤ ·) := by
  have htimes : (c.run.publications.map Prod.fst ++ c.run.ended.toList).Pairwise (· ≤ ·) := by
    rw [List.pairwise_append]
    refine ⟨hc.publications_sorted.map _ fun _ _ hle => hle, ?_, ?_⟩
    · cases c.run.ended <;> simp
    · intro t ht ended hended
      obtain ⟨p, hp, rfl⟩ := List.mem_map.1 ht
      have hrun : c.run.ended = some ended := by
        simpa using hended
      exact (hc.le_stop ended hrun).2 _ (mem_events_of_mem_publications hp)
  have hsublist := eraseReps_sublist
    ((c.run.publications.map Prod.fst ++ c.run.ended.toList).filter (since < ·))
  rw [List.pairwise_cons]
  refine ⟨fun t ht => ?_, (htimes.filter _).sublist hsublist⟩
  have hmem := List.mem_filter.1 (hsublist.subset ht)
  exact Nat.le_of_lt (of_decide_eq_true hmem.2)

/-- **A subscriber of a connection gets records in their order**, from the one on that was there when
it came, and the last one of all before it comes to the end. -/
theorem subscribe_served (decoder : Decoder) (options : LoopOptions) (cancelAt : Option Nat)
    (source : Source) (since : Nat) (rate : UpdateRate) :
    let c := start decoder options cancelAt source
    let all := publicationsOf (c.run.publications.map Prod.snd)
    let got := gotten (c.subscribe since rate)
    got.items.Sublist (all.drop ((c.publishedAt since).length - 1)) ∧
      (got.ended = true → got.items.getLast? = all.getLast?) := by
  intro c all got
  have hc : c.Timely := timely_start decoder options cancelAt source
  have hnew := Follower.tracks_new (c.recordsAt since) (c.publishedAt since) rate
  have hmoments := hc.moments_sorted since
  obtain ⟨hfirst, -⟩ := List.pairwise_cons.1 hmoments
  have hsince := List.pairwise_cons.2
    ⟨List.forall_mem_cons.2 ⟨Nat.le_refl since, hfirst⟩, hmoments⟩
  obtain ⟨g, last, -, hg, hproceeds⟩ := hc.exists_proceeds_follow 3 _ hsince hnew rfl
  have hserved := hg.served (c.recordsAt_holds last)
  have hbegin : g.since = (c.publishedAt since).length := hproceeds.since
  have hgot : g.got = got.items := hproceeds.got
  have hended : g.ended = got.ended := hproceeds.ended
  rw [← hgot, ← hended]
  constructor
  · have hall : (publicationsOf (c.publishedAt last)).Sublist all := by
      obtain ⟨more, hmore⟩ := hc.publishedAt_isPrefix last
      show (publicationsOf (c.publishedAt last)).Sublist (publicationsOf _)
      rw [← hmore]
      exact (publicationsOf_isPrefix _ more).sublist
    rw [← hbegin]
    exact hserved.sublist.trans (hall.drop _)
  · intro hend
    have hclosed := hserved.closed hend
    rw [recordsAt_closed] at hclosed
    rw [hserved.complete hend, hc.publishedAt_of_hasEnded hclosed]

end Connection

end Downlink
