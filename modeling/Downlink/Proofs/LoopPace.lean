import Downlink.Proofs.LoopAccount

/-!
# The pace of a source

How long a source takes for its answers decides when a loop does something, but not what it does. So
two sources that give the same answers, at whatever pace, make a loop do the same
(`start_alike`).
-/

namespace Downlink

/-- The same answer without a wait. -/
def Call.atOnce (call : Call) : Call := ⟨.pause 0, call.answer⟩

namespace Source

/-- What a source answers, with the first answer behind its last call. -/
def answers (source : Source) : List Answer :=
  (source ++ [Call.beyond] : Source).map Call.answer

/-- A source that gives the same answers without a wait. -/
def atOnce (source : Source) : Source :=
  source.map Call.atOnce

theorem atOnce_eq (calls : Source) :
    calls.atOnce = (calls.map Call.answer).map fun answer => ⟨.pause 0, answer⟩ := by
  rw [List.map_map]
  rfl

theorem atOnce_isPrefix {calls more : Source} (h : calls.map Call.answer <+: more.map Call.answer) :
    calls.atOnce <+: more.atOnce := by
  rw [atOnce_eq, atOnce_eq more]
  exact h.map _

@[simp] theorem atOnce_append (calls more : Source) :
    (calls ++ more : Source).atOnce = calls.atOnce ++ more.atOnce :=
  List.map_append

@[simp] theorem atOnce_singleton (call : Call) : atOnce [call] = [call.atOnce] := rfl

@[simp] theorem trailingFailures_atOnce (calls : Source) :
    calls.atOnce.trailingFailures = calls.trailingFailures := by
  have hfailure : Call.isFailure ∘ Call.atOnce = Call.isFailure := rfl
  rw [trailingFailures, trailingFailures, atOnce, ← List.map_reverse, List.takeWhile_map,
    List.length_map, hfailure]

end Source

namespace ReceiveLoop

variable {l : ReceiveLoop} {source other made made' : Source} {last last' : Call}

/-! ## What a loop does without waiting -/

@[simp] theorem endsAt_atOnce (l : ReceiveLoop) (before : Source) (call : Call) :
    l.endsAt before.atOnce call.atOnce = l.endsAt before call := by
  simp only [endsAt, Call.atOnce, Source.trailingFailures_atOnce]

@[simp] theorem tally_atOnce (l : ReceiveLoop) (calls : Source) :
    l.tally calls.atOnce = l.tally calls := by
  rw [tally, tally, Source.atOnce, List.foldl_map]
  rfl

theorem deeds_atOnce (l : ReceiveLoop) (before : Source) (call : Call) :
    l.deeds before.atOnce call.atOnce = l.deeds before call := by
  have htally : l.tally (before.atOnce ++ [call.atOnce]) = l.tally (before ++ [call]) := by
    rw [← tally_atOnce l (before ++ [call]), Source.atOnce_append, Source.atOnce_singleton]
  rw [deeds, deeds, htally, Call.atOnce]

theorem doings_atOnce (l : ReceiveLoop) (before calls : Source) :
    l.doings before.atOnce calls.atOnce = l.doings before calls := by
  induction calls generalizing before with
  | nil => rfl
  | cons call rest ih =>
    have hrest := ih (before ++ [call])
    rw [Source.atOnce_append, Source.atOnce_singleton] at hrest
    show l.deeds before.atOnce call.atOnce ++
      l.doings (before.atOnce ++ [call.atOnce]) (Source.atOnce rest) = _
    rw [deeds_atOnce, hrest]
    rfl

theorem GoesOn.atOnce (h : l.GoesOn made) : l.GoesOn made.atOnce := by
  rintro earlier call ⟨behind, hbehind⟩
  obtain ⟨first, rest, rfl, hfirst, -⟩ := List.append_eq_map_iff.1 hbehind
  obtain ⟨calls, ends, rfl, rfl, hends⟩ := List.map_eq_append_iff.1 hfirst
  obtain ⟨own, rfl, rfl⟩ := List.map_eq_singleton_iff.1 hends
  show l.endsAt (Source.atOnce calls) own.atOnce = false
  rw [endsAt_atOnce]
  exact h calls own (List.prefix_append _ _)

/-! ## The calls made -/

/-- A source that gives the same answers makes a loop make the same calls. It does not matter what it
would answer behind the answer that there is nothing more. -/
theorem Consumed.atOnce (h : l.Consumed source made last)
    (hanswers : source.answers <+: other.answers) :
    l.Consumed other.atOnce made.atOnce last.atOnce where
  taken := by
    have htaken : (made ++ [last] : Source).atOnce <+: (other ++ [.beyond] : Source).atOnce :=
      (h.taken.map Call.atOnce).trans (Source.atOnce_isPrefix hanswers)
    rw [Source.atOnce_append, Source.atOnce_append] at htaken
    exact htaken
  goesOn := h.goesOn.atOnce
  ends := by
    rw [endsAt_atOnce]
    exact h.ends

theorem Consumed.eq_of_isPrefix (h : l.Consumed source made last)
    (h' : l.Consumed source made' last') (hle : made ++ [last] <+: made' ++ [last']) :
    made' ++ [last'] = made ++ [last] := by
  rcases List.prefix_concat_iff.1 hle with heq | hearlier
  · exact heq.symm
  · have hends := h.ends
    rw [h'.goesOn _ _ hearlier] at hends
    cases hends

theorem Consumed.unique (h : l.Consumed source made last) (h' : l.Consumed source made' last') :
    made' = made ∧ last' = last := by
  apply List.append_singleton_inj.1
  -- Of two beginnings of a source, one is a beginning of the other.
  rcases List.prefix_or_prefix_of_prefix h.taken h'.taken with hle | hle
  · exact h.eq_of_isPrefix h' hle
  · exact (h'.eq_of_isPrefix h hle).symm

theorem accounts_of_consumed (hcancel : l.cancelAt = none)
    (hanswers : ∀ call ∈ source, call.wait ≠ .forever) (h : l.Consumed source made last) :
    l.Accounts (made ++ [last]) (l.start source) := by
  obtain ⟨made', last', h', hevents, hended⟩ :=
    run_of_agrees hcancel source hanswers l.agrees_start l.goesOn_nil
  obtain ⟨rfl, rfl⟩ := h.unique h'
  exact accounts_of_events hevents hended

/-- Two runs do the same, each at its own times. -/
structure Run.Alike (r other : Run) : Prop where
  events : r.events.map Prod.snd = other.events.map Prod.snd
  counters : r.counters = other.counters
  latest : r.latest = other.latest

theorem Run.alike_of_events {r other : Run}
    (h : r.events.map Prod.snd = other.events.map Prod.snd) : r.Alike other where
  events := h
  counters := by
    rw [Run.counters_eq, h, ← Run.counters_eq]
  latest := by
    rw [Run.latest_eq, h, ← Run.latest_eq]

/-- **The same answers make a loop do the same, whatever their pace.** -/
theorem start_alike (hcancel : l.cancelAt = none) (hwaits : ∀ call ∈ source, call.wait ≠ .forever)
    (hother : ∀ call ∈ other, call.wait ≠ .forever) (hanswers : source.answers <+: other.answers) :
    (l.start source).Alike (l.start other) := by
  obtain ⟨made, last, hmade, hevents, -⟩ :=
    run_of_agrees hcancel source hwaits l.agrees_start l.goesOn_nil
  obtain ⟨made', last', hmade', hevents', -⟩ :=
    run_of_agrees hcancel other hother l.agrees_start l.goesOn_nil
  obtain ⟨hcalls, hlast⟩ : made'.atOnce = made.atOnce ∧ last'.atOnce = last.atOnce :=
    (hmade.atOnce hanswers).unique (hmade'.atOnce (List.prefix_refl _))
  have hdoings : ∀ (calls : Source) (call : Call),
      l.doings [] (calls ++ [call]) = l.doings [] (calls.atOnce ++ [call.atOnce]) := by
    intro calls call
    rw [← doings_atOnce, Source.atOnce_append, Source.atOnce_singleton]
    rfl
  apply Run.alike_of_events
  calc (l.start source).events.map Prod.snd
      = l.doings [] (made.atOnce ++ [last.atOnce]) := hevents.trans (hdoings made last)
    _ = l.doings [] (made'.atOnce ++ [last'.atOnce]) := by
        rw [hcalls, hlast]
    _ = (l.start other).events.map Prod.snd := (hevents'.trans (hdoings made' last')).symm

end ReceiveLoop

end Downlink
