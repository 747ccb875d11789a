import Downlink.Proofs.LoopAccount
import Downlink.Proofs.Tally

/-!
# Moments of a run

A run may be looked at between any two of its events. Whatever ends it, and be it that it is
cancelled, its events are the beginning of what is due about the calls of its source
(`events_isPrefix_doings`). So at each moment it has counted some calls, it has reported the records
among them, or all but the last, and it has published them, or all but the last (`Counted`).

This is how a record comes to be counted before it is reported (`records_at_accepted`) and before it
is published (`published_le_records`, `exists_givesAt_published`).
-/

namespace Downlink

/-! ## Records among datagrams -/

namespace Decoder

variable {d : Decoder} {datagrams more : List Bytes} {place number : Nat} {record : Record}

/-- The records that some datagrams give. -/
def recordsOf (d : Decoder) (datagrams : List Bytes) : List Record :=
  datagrams.filterMap fun datagram => (d.decode datagram).toOption

theorem recordsOf_append (d : Decoder) (datagrams more : List Bytes) :
    d.recordsOf (datagrams ++ more) = d.recordsOf datagrams ++ d.recordsOf more :=
  List.filterMap_append

/-- A datagram gives a record, and so did some number of those before it. -/
structure GivesAt (d : Decoder) (datagrams : List Bytes) (place number : Nat) (record : Record) :
    Prop where
  decode : ∃ datagram, datagrams[place]? = some datagram ∧ d.decode datagram = .ok record
  before : (datagrams.take place).countP (fun datagram => d.outcome datagram = .record) = number

theorem isSome_toOption_decode (d : Decoder) (datagram : Bytes) :
    (d.decode datagram).toOption.isSome = decide (d.outcome datagram = .record) := by
  rw [outcome]
  cases d.decode datagram with
  | ok record => rfl
  | error error =>
    have hother : Outcome.ofError error ≠ .record := by
      rcases error with (_ | _) | cause
      · exact Outcome.noConfusion
      · exact Outcome.noConfusion
      · cases cause <;> exact Outcome.noConfusion
    exact (decide_eq_false hother).symm

theorem length_recordsOf (d : Decoder) (datagrams : List Bytes) :
    (d.recordsOf datagrams).length =
      datagrams.countP fun datagram => d.outcome datagram = .record := by
  rw [recordsOf, List.length_filterMap_eq_countP]
  congr 1
  funext datagram
  exact d.isSome_toOption_decode datagram

theorem GivesAt.cons (h : d.GivesAt datagrams place number record) (datagram : Bytes) :
    d.GivesAt (datagram :: datagrams) (place + 1)
      (number + if d.outcome datagram = .record then 1 else 0) record where
  decode := h.decode
  before := by
    rw [List.take_succ_cons, List.countP_cons, h.before]
    simp only [decide_eq_true_eq]

/-- **Every record is given by a datagram**, with as many records before it. -/
theorem exists_givesAt (h : (d.recordsOf datagrams)[number]? = some record) :
    ∃ place < datagrams.length, d.GivesAt datagrams place number record := by
  induction datagrams generalizing number with
  | nil => cases h
  | cons datagram rest ih =>
    have hoption := d.isSome_toOption_decode datagram
    cases hdecode : d.decode datagram with
    | error error =>
      have hrecords : d.recordsOf (datagram :: rest) = d.recordsOf rest :=
        List.filterMap_cons_none (by rw [hdecode]; rfl)
      have hother : ¬ d.outcome datagram = .record := by
        simpa [hdecode, Except.toOption] using hoption
      rw [hrecords] at h
      obtain ⟨place, hplace, hgives⟩ := ih h
      have hcons := hgives.cons datagram
      rw [if_neg hother] at hcons
      exact ⟨place + 1, Nat.succ_lt_succ hplace, hcons⟩
    | ok first =>
      have hrecords : d.recordsOf (datagram :: rest) = first :: d.recordsOf rest :=
        List.filterMap_cons_some (by rw [hdecode]; rfl)
      have hrecord : d.outcome datagram = .record := by
        simpa [hdecode, Except.toOption] using hoption
      rw [hrecords] at h
      cases number with
      | zero =>
        obtain rfl : first = record := Option.some.inj h
        exact ⟨0, Nat.succ_pos _, ⟨datagram, rfl, hdecode⟩, rfl⟩
      | succ number =>
        obtain ⟨place, hplace, hgives⟩ := ih h
        have hcons := hgives.cons datagram
        rw [if_pos hrecord] at hcons
        exact ⟨place + 1, Nat.succ_lt_succ hplace, hcons⟩

theorem GivesAt.extend (h : d.GivesAt datagrams place number record) (hmore : datagrams <+: more) :
    d.GivesAt more place number record := by
  obtain ⟨behind, rfl⟩ := hmore
  obtain ⟨datagram, hdatagram, hdecode⟩ := h.decode
  have hplace : place < datagrams.length := (List.getElem?_eq_some_iff.1 hdatagram).1
  refine ⟨⟨datagram, ?_, hdecode⟩, ?_⟩
  · rw [List.getElem?_append_left hplace]
    exact hdatagram
  · rw [List.take_append_of_le_length (Nat.le_of_lt hplace)]
    exact h.before

end Decoder

namespace ReceiveLoop

variable {l : ReceiveLoop} {before made calls : Source} {call : Call} {s : State}
  {earlier : List Event}

/-! ## The beginning of what is due -/

theorem recover_agrees {error : LinkError} (hs : l.Agrees before s)
    (hcall : call.answer = .failure error) (now : Nat) :
    Event.requested :: (l.recover { s with now } error).1.map Prod.snd = l.deeds before call ∧
      ∀ t, (l.recover { s with now } error).2 = .go t → l.Agrees (before ++ [call]) t := by
  rw [deeds_of_failure hs hcall, recover]
  cases hgives : l.givesUp error (s.failures + 1) with
  | true => exact ⟨rfl, fun t ht => by cases ht⟩
  | false =>
    rcases l.waitUntil (some (now + l.options.backoff (s.failures + 1))) with later | later | _
    · refine ⟨rfl, ?_⟩
      rintro t ⟨⟩
      exact agrees_after_failure hs hcall hgives later
    · exact ⟨rfl, fun t ht => by cases ht⟩
    · exact ⟨rfl, fun t ht => by cases ht⟩

theorem step_isPrefix_deeds (hs : l.Agrees before s) (call : Call) :
    (l.step s call).1.map Prod.snd <+: l.deeds before call ∧
      ∀ t, (l.step s call).2 = .go t →
        (l.step s call).1.map Prod.snd = l.deeds before call ∧ l.Agrees (before ++ [call]) t := by
  have hrequested : [Event.requested] <+: l.deeds before call :=
    List.cons_prefix_cons.2 ⟨rfl, List.nil_prefix⟩
  rcases hwait : l.waitUntil (call.wait.end? s.now) with now | now | _
  · cases hcall : call.answer with
    | exhausted =>
      simp only [step, hwait, hcall]
      exact ⟨hrequested, fun t ht => by cases ht⟩
    | datagram d =>
      obtain ⟨events, next, hreceive, hevents, hleads⟩ := receive_of_agrees hs hcall now
      simp only [step, hwait, hcall, hreceive]
      refine ⟨hevents ▸ List.prefix_refl _, ?_⟩
      rintro t rfl
      exact ⟨hevents, hleads.2⟩
    | failure error =>
      obtain ⟨hevents, hagrees⟩ := recover_agrees hs hcall now
      simp only [step, hwait, hcall]
      exact ⟨hevents ▸ List.prefix_refl _, fun t ht => ⟨hevents, hagrees t ht⟩⟩
  · simp only [step, hwait]
    exact ⟨hrequested, fun t ht => by cases ht⟩
  · simp only [step, hwait]
    exact ⟨hrequested, fun t ht => by cases ht⟩

/-- **What a run does is the beginning of what is due**, whatever ends it. -/
theorem run_isPrefix_doings (hs : l.Agrees before s) (source : Source) :
    (l.run s source).events.map Prod.snd <+: l.doings before (source ++ [.beyond]) := by
  induction source generalizing before s with
  | nil => exact List.prefix_refl _
  | cons call rest ih =>
    obtain ⟨hbegins, hgoes⟩ := step_isPrefix_deeds hs call
    rcases hstep : l.step s call with ⟨events, next⟩
    rw [hstep] at hbegins hgoes
    cases next with
    | stop ended =>
      rw [run_cons_stop hstep]
      exact hbegins.trans (List.prefix_append _ _)
    | go t =>
      obtain ⟨hevents, ht⟩ := hgoes t rfl
      rw [run_cons_go hstep, Run.after, List.map_append, hevents]
      exact (List.prefix_append_right_inj _).2 (ih ht)

theorem events_isPrefix_doings (l : ReceiveLoop) (source : Source) :
    (l.start source).events.map Prod.snd <+: l.doings [] (source ++ [.beyond]) :=
  run_isPrefix_doings l.agrees_start source

/-! ## What has been told -/

/-- The record of a report. -/
def Event.accepted? : Event → Option Record
  | .accepted _ record => some record
  | _ => none

/-- Some calls have been counted by a moment. Of the records among them the last one may not yet
have been reported, or not yet have been published. -/
structure Counted (l : ReceiveLoop) (before made : Source) (earlier : List Event) : Prop where
  counters : lastCounters (l.tally before) earlier = l.tally (before ++ made)
  accepted : ∃ left, left.length ≤ 1 ∧
    earlier.filterMap Event.accepted? ++ left = l.decoder.recordsOf made.datagrams
  published : ∃ left, left.length ≤ 1 ∧
    earlier.filterMap Event.published? ++ left = l.decoder.recordsOf made.datagrams

/-- What is due about a call: nothing but the request, or to count a call without a record, or to
count a record, report it and publish it. -/
theorem deeds_cases (hreceiver : l.hasReceiver = true) (before : Source) (call : Call) :
    (l.deeds before call = [.requested] ∧
      l.decoder.recordsOf (Source.datagrams [call]) = []) ∨
    (∃ told, (told = [] ∨ ∃ d error, told = [.rejected d error]) ∧
      l.deeds before call = [.requested, .counted (l.tally (before ++ [call]))] ++ told ∧
      l.decoder.recordsOf (Source.datagrams [call]) = []) ∨
    ∃ d record,
      l.deeds before call = [.requested, .counted (l.tally (before ++ [call])),
        .accepted d record, .published record] ∧
      l.decoder.recordsOf (Source.datagrams [call]) = [record] := by
  cases hcall : call.answer with
  | exhausted =>
    left
    refine ⟨by simp [deeds, hcall], ?_⟩
    simp [Source.datagrams_cons_of_not_datagram, hcall, Decoder.recordsOf]
  | failure error =>
    right; left
    refine ⟨[], .inl rfl, by simp [deeds, hcall], ?_⟩
    simp [Source.datagrams_cons_of_not_datagram, hcall, Decoder.recordsOf]
  | datagram d =>
    have hdatagrams : Source.datagrams [call] = [d.bytes] :=
      Source.datagrams_cons_of_datagram hcall []
    right
    cases hdecode : l.decoder.decode d.bytes with
    | error error =>
      left
      refine ⟨_, .inr ⟨d, error, rfl⟩, ?_, ?_⟩
      · simp [deeds, hcall, report, publication?, hdecode, Except.toOption]
      · simp [hdatagrams, Decoder.recordsOf, hdecode, Except.toOption]
    | ok record =>
      right
      refine ⟨d, record, ?_, ?_⟩
      · simp [deeds, hcall, report, publication?, hdecode, hreceiver, Except.toOption]
      · simp [hdatagrams, Decoder.recordsOf, hdecode, Except.toOption]

theorem counted_nil (hcounters : lastCounters (l.tally before) earlier = l.tally before)
    (haccepted : earlier.filterMap Event.accepted? = [])
    (hpublished : earlier.filterMap Event.published? = []) : l.Counted before [] earlier where
  counters := by
    rw [List.append_nil, hcounters]
  accepted := ⟨[], Nat.zero_le 1, by rw [haccepted]; rfl⟩
  published := ⟨[], Nat.zero_le 1, by rw [hpublished]; rfl⟩

theorem counted_of_isPrefix_deeds (hreceiver : l.hasReceiver = true)
    (h : earlier <+: l.deeds before call) :
    ∃ made, made <+: [call] ∧ l.Counted before made earlier := by
  rcases l.deeds_cases hreceiver before call with ⟨hdeeds, -⟩ |
    ⟨told, htold, hdeeds, hrecords⟩ | ⟨d, record, hdeeds, hrecords⟩
  · simp only [hdeeds, List.prefix_cons_iff, List.prefix_nil] at h
    rcases h with rfl | ⟨_, rfl, rfl⟩
    · exact ⟨[], List.nil_prefix, counted_nil rfl rfl rfl⟩
    · exact ⟨[], List.nil_prefix, counted_nil rfl rfl rfl⟩
  · have hnone : ∃ left, left.length ≤ 1 ∧
        [] ++ left = l.decoder.recordsOf (Source.datagrams [call]) :=
      ⟨[], Nat.zero_le 1, hrecords.symm⟩
    rcases htold with rfl | ⟨d, error, rfl⟩
    · simp only [hdeeds, List.append_nil, List.prefix_cons_iff, List.prefix_nil] at h
      rcases h with rfl | ⟨_, rfl, rfl | ⟨_, rfl, rfl⟩⟩
      · exact ⟨[], List.nil_prefix, counted_nil rfl rfl rfl⟩
      · exact ⟨[], List.nil_prefix, counted_nil rfl rfl rfl⟩
      · exact ⟨[call], List.prefix_refl _, rfl, hnone, hnone⟩
    · simp only [hdeeds, List.cons_append, List.nil_append, List.prefix_cons_iff,
        List.prefix_nil] at h
      rcases h with rfl | ⟨_, rfl, rfl | ⟨_, rfl, rfl | ⟨_, rfl, rfl⟩⟩⟩
      · exact ⟨[], List.nil_prefix, counted_nil rfl rfl rfl⟩
      · exact ⟨[], List.nil_prefix, counted_nil rfl rfl rfl⟩
      · exact ⟨[call], List.prefix_refl _, rfl, hnone, hnone⟩
      · exact ⟨[call], List.prefix_refl _, rfl, hnone, hnone⟩
  · have hleft : ∃ left, left.length ≤ 1 ∧
        [] ++ left = l.decoder.recordsOf (Source.datagrams [call]) :=
      ⟨[record], Nat.le_refl 1, hrecords.symm⟩
    have htold : ∃ left, left.length ≤ 1 ∧
        [record] ++ left = l.decoder.recordsOf (Source.datagrams [call]) :=
      ⟨[], Nat.zero_le 1, hrecords.symm⟩
    simp only [hdeeds, List.prefix_cons_iff, List.prefix_nil] at h
    rcases h with rfl | ⟨_, rfl, rfl | ⟨_, rfl, rfl | ⟨_, rfl, rfl | ⟨_, rfl, rfl⟩⟩⟩⟩
    · exact ⟨[], List.nil_prefix, counted_nil rfl rfl rfl⟩
    · exact ⟨[], List.nil_prefix, counted_nil rfl rfl rfl⟩
    · exact ⟨[call], List.prefix_refl _, rfl, hleft, hleft⟩
    · exact ⟨[call], List.prefix_refl _, rfl, htold, hleft⟩
    · exact ⟨[call], List.prefix_refl _, rfl, htold, htold⟩

theorem told_deeds (hreceiver : l.hasReceiver = true) (before : Source) (call : Call) :
    (l.deeds before call).filterMap Event.accepted? =
        l.decoder.recordsOf (Source.datagrams [call]) ∧
      (l.deeds before call).filterMap Event.published? =
        l.decoder.recordsOf (Source.datagrams [call]) := by
  rcases l.deeds_cases hreceiver before call with ⟨hdeeds, hrecords⟩ |
    ⟨told, rfl | ⟨d, error, rfl⟩, hdeeds, hrecords⟩ |
    ⟨d, record, hdeeds, hrecords⟩
  all_goals
    rw [hdeeds, hrecords]
    exact ⟨rfl, rfl⟩

/-- **At every moment of what is due, some calls have been counted.** -/
theorem counted_of_isPrefix (hreceiver : l.hasReceiver = true)
    (h : earlier <+: l.doings before calls) :
    ∃ made, made <+: calls ∧ l.Counted before made earlier := by
  induction calls generalizing before earlier with
  | nil =>
    obtain rfl := List.prefix_nil.1 h
    exact ⟨[], List.prefix_refl _, counted_nil rfl rfl rfl⟩
  | cons call rest ih =>
    rw [doings] at h
    rcases Nat.le_total earlier.length (l.deeds before call).length with hle | hle
    · have hdeeds := List.prefix_of_prefix_length_le h (List.prefix_append _ _) hle
      obtain ⟨made, hmade, hcounted⟩ := counted_of_isPrefix_deeds hreceiver hdeeds
      exact ⟨made, hmade.trans (List.prefix_append [call] rest), hcounted⟩
    · obtain ⟨later, rfl⟩ := List.prefix_of_prefix_length_le (List.prefix_append _ _) h hle
      obtain ⟨made, hmade, hcounters, ⟨left, hleft, haccepted⟩, ⟨left', hleft', hpublished⟩⟩ :=
        ih ((List.prefix_append_right_inj _).1 h)
      obtain ⟨htold, htold'⟩ := told_deeds hreceiver before call
      have hdatagrams : Source.datagrams (call :: made) =
          Source.datagrams [call] ++ Source.datagrams made := Source.datagrams_append [call] made
      refine ⟨call :: made, List.cons_prefix_cons.2 ⟨rfl, hmade⟩, ?_, ⟨left, hleft, ?_⟩,
        ⟨left', hleft', ?_⟩⟩
      · rw [lastCounters_append, lastCounters_deeds, hcounters, List.append_assoc,
          List.singleton_append]
      · rw [List.filterMap_append, htold, List.append_assoc, haccepted, hdatagrams,
          Decoder.recordsOf_append]
      · rw [List.filterMap_append, htold', List.append_assoc, hpublished, hdatagrams,
          Decoder.recordsOf_append]

/-! ## The moments of a run -/

variable {source : Source} {record : Record} {number : Nat}

theorem exists_counted (hreceiver : l.hasReceiver = true)
    (h : earlier <+: (l.start source).events.map Prod.snd) :
    ∃ made : Source, made.datagrams <+: source.datagrams ∧ l.Counted [] made earlier := by
  obtain ⟨made, hmade, hcounted⟩ :=
    counted_of_isPrefix hreceiver (h.trans (l.events_isPrefix_doings source))
  have hdatagrams : Source.datagrams made <+: (source ++ [Call.beyond] : Source).datagrams :=
    Source.datagrams_isPrefix hmade
  rw [Source.datagrams_append] at hdatagrams
  refine ⟨made, ?_, hcounted⟩
  rw [← List.append_nil source.datagrams]
  exact hdatagrams

theorem Counted.counts (h : l.Counted [] made earlier) :
    (lastCounters .zero earlier).datagrams = made.datagrams.length ∧
      (lastCounters .zero earlier).records = (l.decoder.recordsOf made.datagrams).length := by
  have hcounters : lastCounters .zero earlier = l.tally made := h.counters
  have htells := l.tells_tally made
  rw [hcounters]
  refine ⟨htells.datagrams, ?_⟩
  rw [Decoder.length_recordsOf]
  exact htells.outcomes .record

theorem exists_givesAt_of_told {told left : List Record}
    (hmade : made.datagrams <+: source.datagrams) (h : l.Counted [] made earlier)
    (htold : told ++ left = l.decoder.recordsOf made.datagrams)
    (hrecord : told[number]? = some record) :
    ∃ place, l.decoder.GivesAt source.datagrams place number record ∧
      place + 1 ≤ (lastCounters .zero earlier).datagrams := by
  have hnumber := (List.getElem?_eq_some_iff.1 hrecord).1
  have hgiven : (l.decoder.recordsOf made.datagrams)[number]? = some record := by
    rw [← htold, List.getElem?_append_left hnumber]
    exact hrecord
  obtain ⟨place, hplace, hgives⟩ := Decoder.exists_givesAt hgiven
  refine ⟨place, hgives.extend hmade, ?_⟩
  rw [h.counts.1]
  exact hplace

/-- **At every moment of a run as many records have been counted as published, or one more.** -/
theorem published_le_records (hreceiver : l.hasReceiver = true)
    (h : earlier <+: (l.start source).events.map Prod.snd) :
    (earlier.filterMap Event.published?).length ≤ (lastCounters .zero earlier).records ∧
      (lastCounters .zero earlier).records ≤ (earlier.filterMap Event.published?).length + 1 := by
  obtain ⟨made, -, hcounted⟩ := exists_counted hreceiver h
  obtain ⟨left, hleft, hpublished⟩ := hcounted.published
  rw [hcounted.counts.2, ← hpublished, List.length_append]
  omega

theorem exists_givesAt_published (hreceiver : l.hasReceiver = true)
    (h : earlier <+: (l.start source).events.map Prod.snd)
    (hrecord : (earlier.filterMap Event.published?)[number]? = some record) :
    ∃ place, l.decoder.GivesAt source.datagrams place number record ∧
      place + 1 ≤ (lastCounters .zero earlier).datagrams := by
  obtain ⟨made, hmade, hcounted⟩ := exists_counted hreceiver h
  obtain ⟨left, -, hpublished⟩ := hcounted.published
  exact exists_givesAt_of_told hmade hcounted hpublished hrecord

theorem records_at_accepted (hreceiver : l.hasReceiver = true) {d : RawDatagram}
    (h : earlier ++ [.accepted d record] <+: (l.start source).events.map Prod.snd) :
    (lastCounters .zero earlier).records = (earlier.filterMap Event.accepted?).length + 1 ∧
      ∃ place, l.decoder.GivesAt source.datagrams place (earlier.filterMap Event.accepted?).length
          record ∧
        place + 1 ≤ (lastCounters .zero earlier).datagrams := by
  -- A report counts nothing, so one may look right before it or right behind it.
  have hsame : lastCounters .zero (earlier ++ [.accepted d record]) =
      lastCounters .zero earlier := lastCounters_append _ _ _
  obtain ⟨made, -, hcounted⟩ := exists_counted hreceiver ((List.prefix_append _ _).trans h)
  obtain ⟨made', hmade', hcounted'⟩ := exists_counted hreceiver h
  obtain ⟨left, hleft, haccepted⟩ := hcounted.accepted
  obtain ⟨left', -, haccepted'⟩ := hcounted'.accepted
  have hrecords := hcounted.counts.2
  have hrecords' := hcounted'.counts.2
  rw [← haccepted, List.length_append] at hrecords
  rw [← haccepted', hsame, List.filterMap_append, List.length_append, List.length_append]
    at hrecords'
  have hone : (List.filterMap Event.accepted? [.accepted d record]).length = 1 := rfl
  refine ⟨by omega, ?_⟩
  rw [← hsame]
  refine exists_givesAt_of_told hmade' hcounted' haccepted' ?_
  rw [List.filterMap_append]
  exact List.getElem?_concat_length

end ReceiveLoop

end Downlink
