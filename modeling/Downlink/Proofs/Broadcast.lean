import Downlink.Proofs.Followers

/-!
# Records among subscribers

Records are published in a channel until it is closed; subscribers come at any time, at any rate,
and look at the channel whenever they like. Each step of this system keeps that every subscriber
tracks the channel, so it holds after every run.

* `Broadcast.run_served`: every subscriber gets records in their order, none of them twice, none
  from before it came but the latest, and one that came to the end has got the last record.
-/

namespace Downlink

/-! ## The system -/

/-- A channel of records with all that were published in it, and those who follow it. -/
structure Broadcast where
  channel : RecordChannel
  published : List Record
  followers : List Follower

namespace Broadcast

/-- What may happen, in any order. Nothing is published in a closed channel. -/
inductive Action
  | publish (record : Record)
  | close
  | subscribe (rate : UpdateRate)
  /-- A follower goes on with its poll up to the next look, at a time in nanoseconds. -/
  | advance (follower now : Nat)
  /-- A follower polls without a break, at a time in milliseconds. -/
  | poll (follower now : Nat)

/-- A channel in which nothing was published. -/
def start : Broadcast := ⟨.new none, [], []⟩

def step (b : Broadcast) : Action → Broadcast
  | .publish record =>
    if b.channel.closed then b
    else { b with channel := b.channel.publish record, published := b.published ++ [record] }
  | .close => { b with channel := b.channel.close }
  | .subscribe rate => { b with followers := b.followers ++ [.new b.published.length rate] }
  | .advance follower now =>
    { b with followers := b.followers.modify follower (·.advance b.channel now) }
  | .poll follower now =>
    { b with followers := b.followers.modify follower (·.poll b.channel now) }

def run (b : Broadcast) (actions : List Action) : Broadcast :=
  actions.foldl step b

/-- What every action keeps. -/
structure Coherent (b : Broadcast) : Prop where
  holds : b.channel.Holds b.published
  tracks : ∀ f ∈ b.followers, f.Tracks b.channel b.published

theorem coherent_start : start.Coherent where
  holds := ⟨rfl, rfl⟩
  tracks := fun _ hf => by cases hf

theorem forall_mem_modify {α : Type} {P : α → Prop} {xs : List α} {f : α → α} (index : Nat)
    (hxs : ∀ a ∈ xs, P a) (hf : ∀ a, P a → P (f a)) : ∀ a ∈ xs.modify index f, P a := by
  intro a ha
  obtain ⟨i, hi⟩ := List.mem_iff_getElem?.1 ha
  rw [List.getElem?_modify] at hi
  cases hget : xs[i]? with
  | none => simp [hget] at hi
  | some b =>
    have hb := hxs b (List.mem_iff_getElem?.2 ⟨i, hget⟩)
    rw [hget] at hi
    obtain rfl := Option.some.inj hi
    split
    · exact hf b hb
    · exact hb

variable {b : Broadcast}

theorem Coherent.step (h : b.Coherent) (action : Action) : (b.step action).Coherent := by
  obtain ⟨hholds, htracks⟩ := h
  cases action with
  | publish record =>
    cases hclosed : b.channel.closed with
    | true =>
      simp only [Broadcast.step, hclosed]
      exact ⟨hholds, htracks⟩
    | false =>
      simp only [Broadcast.step, hclosed]
      exact ⟨hholds.publish record, fun f hf => (htracks f hf).publish hclosed record⟩
  | close => exact ⟨⟨hholds.version, hholds.value⟩, fun f hf => (htracks f hf).close⟩
  | subscribe rate =>
    refine ⟨hholds, fun f hf => ?_⟩
    rcases List.mem_append.1 hf with hold | hnew
    · exact htracks f hold
    · obtain rfl := List.mem_singleton.1 hnew
      exact Follower.tracks_new _ _ rate
  | advance follower now =>
    exact ⟨hholds, forall_mem_modify follower htracks fun f hf => hf.advance hholds now⟩
  | poll follower now =>
    exact ⟨hholds, forall_mem_modify follower htracks fun f hf => hf.poll hholds now⟩

theorem Coherent.run (h : b.Coherent) (actions : List Action) : (b.run actions).Coherent := by
  induction actions generalizing b with
  | nil => exact h
  | cons action rest ih => exact ih (h.step action)

/-- **Every subscriber is served**, in whatever order records are published, the channel is closed,
subscribers come at whatever rate, and each of them polls, be it in one go or look by look. -/
theorem run_served (actions : List Action) :
    ∀ f ∈ (start.run actions).followers,
      f.Served (start.run actions).channel (start.run actions).published := by
  intro f hf
  have hcoherent := coherent_start.run actions
  exact (hcoherent.tracks f hf).served hcoherent.holds

/-- A record that is replaced after a subscriber noticed a change and before it reads, a channel
that is closed at once, and another subscriber that comes only then. -/
def raced : List Action :=
  [.publish ⟨[], 8, 8⟩, .subscribe .native, .advance 0 0, .publish ⟨[], 16, 16⟩, .close,
   .advance 0 0, .subscribe (.max 5), .poll 0 1, .poll 1 1, .poll 1 100, .poll 1 201]

theorem run_served_raced :
    ∃ f g, (start.run raced).followers = [f, g] ∧ f.ended = true ∧ g.ended = true ∧
      f.got = [⟨1, ⟨[], 16, 16⟩⟩] ∧ g.got = [⟨1, ⟨[], 16, 16⟩⟩] ∧
      f.Served (start.run raced).channel (start.run raced).published ∧
      g.Served (start.run raced).channel (start.run raced).published := by
  refine ⟨_, _, rfl, rfl, rfl, rfl, rfl, ?_, ?_⟩
  · exact run_served raced _ List.mem_cons_self
  · exact run_served raced _ (List.mem_cons_of_mem _ List.mem_cons_self)

end Broadcast

end Downlink
