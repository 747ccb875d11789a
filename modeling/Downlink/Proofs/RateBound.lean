import Downlink.Proofs.Broadcast
import Downlink.Proofs.ThrottledStream

/-!
# At most so many records a second

The period of a rate is rounded down to nanoseconds, so on an exact clock a subscriber can get one
record more in a second than the rate says. On a clock that goes by whole milliseconds it cannot:
its gate is found open at the next whole millisecond only (`add_ticks_le`), and so many periods, each
of them rounded up, come to a second at least (`UpdateRate.second_le`).

What a throttle gave is a period apart, and every look of a subscriber keeps that
(`Follower.Paced.advance`). So it holds over every run of a broadcast, whatever is published and
whenever the subscriber polls (`Broadcast.gains_at_most`).
-/

namespace Downlink

/-! ## Whole milliseconds -/

/-- Nanoseconds in a millisecond. -/
abbrev tick : Nat := 1000000

/-- The milliseconds that a number of nanoseconds takes, rounded up. -/
def ticks (nanoseconds : Nat) : Nat := (nanoseconds + 999999) / tick

theorem add_ticks_le {a b period : Nat} (ha : tick ∣ a) (hb : tick ∣ b) (h : a + period ≤ b) :
    a + ticks period * tick ≤ b := by
  obtain ⟨a, rfl⟩ := ha
  obtain ⟨b, rfl⟩ := hb
  unfold ticks tick at *
  omega

/-- **So many periods of a rate, each rounded up, come to a second.** -/
theorem UpdateRate.second_le {n : Nat} (hpos : 1 ≤ n) (hmax : n ≤ 1000000000) :
    1000000000 ≤ n * (ticks (1000000000 / n) * tick) := by
  have hperiod : 1 ≤ 1000000000 / n := Nat.div_pos hmax hpos
  have hsecond := Nat.div_add_mod 1000000000 n
  have hrest : 1000000000 % n < n := Nat.mod_lt _ hpos
  have hup : 1000000000 / n ≤ ticks (1000000000 / n) * tick := by
    unfold ticks tick
    omega
  have hmore := Nat.mul_le_mul_left n hup
  have hone : n * 1 ≤ n * ticks (1000000000 / n) := by
    refine Nat.mul_le_mul_left n ?_
    unfold ticks tick
    omega
  -- The periods come to whole milliseconds, so what is missing by rounding down is less than one
  -- of them, unless there is a period for each millisecond anyway.
  rw [← Nat.mul_assoc] at hmore ⊢
  unfold tick at *
  omega

theorem length_le_of_apart {gap n start : Nat} {times : List Nat}
    (hapart : times.Pairwise fun a b => a + gap ≤ b)
    (hwindow : ∀ a ∈ times, start ≤ a ∧ a < start + n * gap) : times.length ≤ n := by
  induction times generalizing n start with
  | nil => exact Nat.zero_le n
  | cons a rest ih =>
    obtain ⟨hfirst, hrest⟩ := List.pairwise_cons.1 hapart
    obtain ⟨⟨hstart, hstop⟩, hwindow⟩ := List.forall_mem_cons.1 hwindow
    cases n with
    | zero => omega
    | succ n =>
      have hbehind : ∀ b ∈ rest, start + gap ≤ b ∧ b < start + gap + n * gap := by
        intro b hb
        have hgap := hfirst b hb
        have hwithin := (hwindow b hb).2
        rw [Nat.succ_mul] at hwithin
        omega
      exact Nat.succ_le_succ (ih hrest hbehind)

/-! ## Throttles -/

namespace Throttle

variable {α : Type} {period now : Nat} {times : List Nat} {t : Throttle α}

/-- A throttle that gave items at some times. -/
structure Spaced (period : Nat) (times : List Nat) (t : Throttle α) (now : Nat) : Prop where
  same : t.period = period
  apart : times.Pairwise fun a b => a + period ≤ b
  /-- The gate opens a period behind each of them, if it is not open. -/
  gate : ∀ a ∈ times, a + period ≤ t.opensAt.getD now

theorem spaced_new (period now : Nat) : (new period : Throttle α).Spaced period [] now where
  same := rfl
  apart := .nil
  gate := fun _ ha => by cases ha

namespace Spaced

theorem later (h : t.Spaced period times now) {next : Nat} (hle : now ≤ next) :
    t.Spaced period times next := by
  refine ⟨h.same, h.apart, fun a ha => ?_⟩
  have hgate := h.gate a ha
  cases hopensAt : t.opensAt with
  | none =>
    rw [hopensAt] at hgate
    exact Nat.le_trans hgate hle
  | some opensAt =>
    rw [hopensAt] at hgate
    exact hgate

theorem le_of_isOpen (h : t.Spaced period times now) (hopen : t.isOpen now = true) :
    ∀ a ∈ times, a + period ≤ now := by
  intro a ha
  have hgate := h.gate a ha
  cases hopensAt : t.opensAt with
  | none =>
    rw [hopensAt] at hgate
    exact hgate
  | some opensAt =>
    rw [hopensAt] at hgate
    rw [isOpen, hopensAt, Option.all_some, decide_eq_true_iff] at hopen
    exact Nat.le_trans hgate hopen

theorem give (h : t.Spaced period times now) :
    (t.give now).2.Spaced period
      (times ++ List.replicate (t.give now).1.item?.toList.length now) now := by
  cases hheld : t.held with
  | none =>
    have hnothing : ((if t.sourceEnded then .ended else .waiting : Poll α).item?) = none := by
      cases t.sourceEnded <;> rfl
    rw [give_of_held_eq_none hheld, hnothing]
    simp only [Option.toList_none, List.length_nil, List.replicate_zero, List.append_nil]
    cases hopen : t.isOpen now with
    | false => exact h
    | true => exact ⟨h.same, h.apart, h.le_of_isOpen hopen⟩
  | some a =>
    cases hopen : t.isOpen now with
    | false =>
      rw [give_of_not_isOpen hheld hopen]
      simpa using h
    | true =>
      have hpast := h.le_of_isOpen hopen
      rw [give_of_isOpen hheld hopen]
      refine ⟨h.same, ?_, ?_⟩
      · exact List.pairwise_append.2 ⟨h.apart, List.pairwise_singleton _ _, by simpa using hpast⟩
      · refine List.forall_mem_append.2 ⟨fun a ha => ?_, by simp [h.same]⟩
        exact Nat.le_trans (hpast a ha) (Nat.le_add_right now _)

end Spaced

end Throttle

/-! ## Subscribers -/

namespace Follower

variable {w : RecordChannel} {period now : Nat} {times : List Nat} {f : Follower}
  {t : Throttle Publication}

/-- A follower whose throttle gave what it got at some times. -/
def Paced (period : Nat) (times : List Nat) (f : Follower) (now : Nat) : Prop :=
  ∃ t, f.subscription.throttle = some t ∧ t.Spaced period times now

/-- A follower that got more, all of it at one time, and stays paced. -/
def Gains (period : Nat) (times : List Nat) (f g : Follower) (now : Nat) : Prop :=
  ∃ more : List Publication, g.got = f.got ++ more ∧
    g.Paced period (times ++ List.replicate more.length now) now

theorem Paced.later (h : f.Paced period times now) {next : Nat} (hle : now ≤ next) :
    f.Paced period times next := by
  obtain ⟨t, ht, hspaced⟩ := h
  exact ⟨t, ht, hspaced.later hle⟩

theorem gains_nothing {g : Follower} (hgot : g.got = f.got)
    (hpaced : g.Paced period times now) : Gains period times f g now :=
  ⟨[], by simpa using hgot, by simpa using hpaced⟩

theorem gains_getThrottled (h : t.Spaced period times now) :
    Gains period times f (f.getThrottled t now) now := by
  have hspaced := h.give
  refine ⟨(t.give now).1.item?.toList, ?_, ?_⟩
  · unfold getThrottled
    rcases t.give now with ⟨_ | _ | _, u⟩ <;> simp [get]
  · refine ⟨(t.give now).2, ?_, hspaced⟩
    unfold getThrottled
    rcases t.give now with ⟨_ | _ | _, u⟩ <;> rfl

theorem Paced.advance (h : f.Paced period times now) (w : RecordChannel) :
    Gains period times f (f.advance w now) now := by
  obtain ⟨t, ht, hspaced⟩ := h
  cases hsource : t.sourceEnded with
  | true =>
    rw [advance_of_sourceEnded ht hsource]
    exact gains_getThrottled hspaced
  | false =>
    rcases hask : f.subscription.records.ask f.noticed w with ⟨_ | _ | _ | _, records, noticed⟩
    all_goals simp only [Follower.advance, ht, hsource, hask]
    · exact gains_nothing rfl ⟨t, rfl, hspaced⟩
    · exact gains_nothing rfl ⟨_, rfl, hspaced.same, hspaced.apart, hspaced.gate⟩
    · exact (gains_getThrottled hspaced : Gains period times
        ⟨f.since, ⟨records, some t⟩, noticed, f.got, f.ended⟩ _ now)
    · exact gains_nothing rfl ⟨_, rfl, hspaced.same, hspaced.apart, hspaced.gate⟩

theorem Gains.trans {g h : Follower} (hfirst : Gains period times f g now)
    (hthen : ∀ times, g.Paced period times now → Gains period times g h now) :
    Gains period times f h now := by
  obtain ⟨more, hgot, hpaced⟩ := hfirst
  obtain ⟨others, hgot', hpaced'⟩ := hthen _ hpaced
  refine ⟨more ++ others, by rw [hgot', hgot, List.append_assoc], ?_⟩
  rw [List.append_assoc, List.replicate_append_replicate, ← List.length_append] at hpaced'
  exact hpaced'

theorem Paced.advances (h : f.Paced period times now) (w : RecordChannel) (count : Nat) :
    Gains period times f (advances w (List.replicate count now) f) now := by
  induction count generalizing f times with
  | zero => exact gains_nothing rfl h
  | succ n ih => exact (h.advance w).trans fun times hpaced => ih hpaced

theorem Paced.poll (h : f.Paced period times (now * 1000000)) (w : RecordChannel) :
    Gains period times f (f.poll w now) (now * 1000000) := by
  obtain ⟨count, hpoll⟩ := f.poll_eq_advances w now
  rw [hpoll]
  exact h.advances w count

theorem paced_new {rate : UpdateRate} (hrate : rate.interval? = some period) (since now : Nat) :
    (new since rate).Paced period [] now :=
  ⟨.new period, by rw [new, Subscription.new, hrate, Option.map_some],
    Throttle.spaced_new period now⟩

end Follower

/-! ## Broadcasts -/

namespace Broadcast

/-- When a follower looks, in nanoseconds. -/
def Action.time? : Action → Option Nat
  | .advance _ now => some now
  | .poll _ now => some (now * 1000000)
  | _ => none

/-- What a follower has got. -/
def gotBy (b : Broadcast) (index : Nat) : List Publication :=
  (b.followers[index]?.map Follower.got).getD []

/-- What a follower gets by some actions, and when. -/
def gains (b : Broadcast) (index : Nat) : List Action → List (Nat × Publication)
  | [] => []
  | action :: rest =>
    let later := (b.step action).gains index rest
    match action.time? with
    | some now =>
      (((b.step action).gotBy index).drop (b.gotBy index).length).map (now, ·) ++ later
    | none => later

variable {b : Broadcast} {index period now : Nat} {times : List Nat} {f : Follower}

theorem gains_modify {followers : List Follower} (hf : followers[index]? = some f)
    (h : f.Paced period times now) (who : Nat) {look : Follower → Follower}
    (hlook : f.Gains period times (look f) now) :
    ∃ g, (followers.modify who look)[index]? = some g ∧ f.Gains period times g now := by
  rw [List.getElem?_modify, hf]
  by_cases hwho : who = index
  · exact ⟨look f, by simp [hwho], hlook⟩
  · exact ⟨f, by simp [hwho], f.gains_nothing rfl h⟩

theorem step_of_time?_eq_none (hf : b.followers[index]? = some f) {action : Action}
    (htime : action.time? = none) : (b.step action).followers[index]? = some f := by
  cases action with
  | publish record =>
    rw [step]
    split <;> exact hf
  | close => exact hf
  | subscribe rate =>
    obtain ⟨hlt, -⟩ := List.getElem?_eq_some_iff.1 hf
    exact (List.getElem?_append_left hlt).trans hf
  | advance who later => cases htime
  | poll who later => cases htime

theorem step_gains (hf : b.followers[index]? = some f) (h : f.Paced period times now)
    {action : Action} (htime : action.time? = some now) :
    ∃ g, (b.step action).followers[index]? = some g ∧ f.Gains period times g now := by
  cases action with
  | publish record => cases htime
  | close => cases htime
  | subscribe rate => cases htime
  | advance who later =>
    cases htime
    exact gains_modify hf h who (h.advance b.channel)
  | poll who later =>
    cases htime
    exact gains_modify hf h who (h.poll b.channel)

theorem run_paced (hf : b.followers[index]? = some f) (h : f.Paced period times now)
    {actions : List Action} (hclock : (now :: actions.filterMap Action.time?).Pairwise (· ≤ ·)) :
    (b.run actions).gotBy index = f.got ++ (b.gains index actions).map Prod.snd ∧
      (times ++ (b.gains index actions).map Prod.fst).Pairwise (fun a b => a + period ≤ b) ∧
      ∀ a ∈ (b.gains index actions).map Prod.fst, a ∈ actions.filterMap Action.time? := by
  induction actions generalizing b f times now with
  | nil =>
    obtain ⟨t, -, hspaced⟩ := h
    refine ⟨?_, ?_, fun a ha => by cases ha⟩
    · simp [run, gotBy, gains, hf]
    · simpa [gains] using hspaced.apart
  | cons action rest ih =>
    rw [gains]
    cases htime : action.time? with
    | none =>
      rw [List.filterMap_cons_none htime] at hclock ⊢
      exact ih (step_of_time?_eq_none hf htime) h hclock
    | some later =>
      rw [List.filterMap_cons_some htime] at hclock ⊢
      obtain ⟨hnow, hlater⟩ := List.pairwise_cons.1 hclock
      obtain ⟨g, hg, more, hmore, hpaced⟩ :=
        step_gains hf (h.later (hnow later List.mem_cons_self)) htime
      obtain ⟨hgot, hapart, hmem⟩ := ih hg hpaced hlater
      have hgained : ((b.step action).gotBy index).drop (b.gotBy index).length = more := by
        simp [gotBy, hf, hg, hmore]
      have htimes : more.map (Prod.fst ∘ (later, ·)) = List.replicate more.length later :=
        List.map_const
      simp only [hgained, List.map_append, List.map_map]
      refine ⟨?_, ?_, ?_⟩
      · refine hgot.trans ?_
        rw [hmore, List.append_assoc]
        simp [Function.comp_def]
      · rw [htimes, ← List.append_assoc]
        exact hapart
      · intro a ha
        rcases List.mem_append.1 ha with ha | ha
        · rw [htimes] at ha
          rw [List.eq_of_mem_replicate ha]
          exact List.mem_cons_self
        · exact List.mem_cons_of_mem _ (hmem a ha)

/-- **A subscriber gets at most so many records a second as it asked for**, in any window of a
second, whatever happened before it came and whatever happens then, on a clock that goes by whole
milliseconds and not back. -/
theorem gains_at_most {n : UInt32} (hpos : 1 ≤ n.toNat) (hmax : n.toNat ≤ 1000000000)
    (before after : List Action) (hclock : (after.filterMap Action.time?).Pairwise (· ≤ ·))
    (hwhole : ∀ now ∈ after.filterMap Action.time?, tick ∣ now) :
    let b := (start.run before).step (.subscribe (.max n))
    let index := (start.run before).followers.length
    (UpdateRate.max n).interval? = some (1000000000 / n.toNat) ∧
      (b.run after).gotBy index = (b.gains index after).map Prod.snd ∧
      ∀ since, ((b.gains index after).filter
        fun (now, _) => since ≤ now && now < since + 1000 * tick).length ≤ n.toNat := by
  intro b index
  have hrate : (UpdateRate.max n).interval? = some (1000000000 / n.toNat) := by
    have hzero : n ≠ 0 := fun hzero => by simp [hzero] at hpos
    exact if_neg hzero
  have hf : b.followers[index]? = some (.new (start.run before).published.length (.max n)) :=
    List.getElem?_concat_length
  have hfromZero : (0 :: after.filterMap Action.time?).Pairwise (· ≤ ·) :=
    List.pairwise_cons.2 ⟨fun now _ => Nat.zero_le now, hclock⟩
  obtain ⟨hgot, hapart, hmem⟩ := run_paced hf (Follower.paced_new hrate _ 0) hfromZero
  refine ⟨hrate, hgot, fun since => ?_⟩
  have hrounded : ((b.gains index after).map Prod.fst).Pairwise
      fun a b => a + ticks (1000000000 / n.toNat) * tick ≤ b :=
    hapart.imp_of_mem fun ha hb => add_ticks_le (hwhole _ (hmem _ ha)) (hwhole _ (hmem _ hb))
  have hsecond := UpdateRate.second_le hpos hmax
  have hwindow : ∀ a ∈ ((b.gains index after).filter
      fun (now, _) => since ≤ now && now < since + 1000 * tick).map Prod.fst,
      since ≤ a ∧ a < since + n.toNat * (ticks (1000000000 / n.toNat) * tick) := by
    intro a ha
    obtain ⟨⟨now, p⟩, hp, rfl⟩ := List.mem_map.1 ha
    obtain ⟨-, hwithin⟩ := List.mem_filter.1 hp
    rw [Bool.and_eq_true, decide_eq_true_iff, decide_eq_true_iff] at hwithin
    exact ⟨hwithin.1, Nat.lt_of_lt_of_le hwithin.2 (Nat.add_le_add_left hsecond since)⟩
  rw [← List.length_map (f := Prod.fst)]
  exact length_le_of_apart (hrounded.sublist (List.filter_sublist.map _)) hwindow

/-- Records that come one after another, and polls whenever a gate may be open. -/
def hurried : List Action :=
  [.publish ⟨[], 8, 8⟩, .poll 0 0, .publish ⟨[], 16, 16⟩, .poll 0 333, .poll 0 334,
   .publish ⟨[], 24, 24⟩, .poll 0 668, .publish ⟨[], 32, 32⟩, .poll 0 1001, .poll 0 1002]

theorem gains_at_most_hurried :
    ((start.step (.subscribe (.max 3))).gains 0 hurried).map Prod.fst =
        [0, 334000000, 668000000, 1002000000] ∧
      ∀ since, (((start.step (.subscribe (.max 3))).gains 0 hurried).filter
        fun (now, _) => since ≤ now && now < since + 1000 * tick).length ≤ 3 :=
  ⟨by decide, (gains_at_most (n := 3) (by decide) (by decide) [] hurried (by decide)
    (by decide)).2.2⟩

/-- On an exact clock there is a fourth record in the second. -/
example :
    let look := fun (now : Nat) => [Action.publish ⟨[], 8, 8⟩, .advance 0 now, .advance 0 now,
      .advance 0 now]
    let times := [0, 333333333, 666666666, 999999999]
    ((start.step (.subscribe (.max 3))).gains 0 (times.flatMap look)).map Prod.fst = times := by
  decide

end Broadcast

end Downlink
