import Downlink.Replay
import Downlink.Proofs.CaptureReading
import Downlink.Proofs.LoopPace
import Downlink.Proofs.Tally

/-!
# Replays of captures

A replay answers with the datagrams of a capture and, behind the last of them, with the place where
the bytes break off, if there are any left. A loop that has receivers is ended by no datagram, and by
a malformed capture at once. So it is handed the datagrams of all entries, each under its number, and
nothing is asked twice (`HandsOver`).

The speed goes into the waits only. So it does not matter to what the loop does, nor does it matter
whether the datagrams come from a capture at all (`start_replays`).
-/

namespace Downlink

open Capture (Entry Offer Parse Writer magic)

/-! ## Sources of datagrams -/

namespace Source

/-- A source that answers with datagrams and nothing else. -/
def Gives (source : Source) (given : List RawDatagram) : Prop :=
  source.map Call.answer = given.map .datagram

/-- A source that answers with datagrams, numbered from zero on, and then that there is nothing
more. -/
def GivesOnly (source : Source) (given : List Bytes) : Prop :=
  (RawDatagram.numbered 0 given).map .datagram ++ [.exhausted] <+: source.answers

variable {source : Source} {given : List RawDatagram}

theorem Gives.received_eq (h : source.Gives given) : source.received = given := by
  induction source generalizing given with
  | nil => exact (List.map_eq_nil_iff.1 h.symm).symm
  | cons call rest ih =>
    obtain ⟨d, others, rfl, hcall, hrest⟩ := List.map_eq_cons_iff.1 h.symm
    rw [received_cons_of_datagram hcall.symm, ih hrest.symm]

theorem Gives.exists_datagram (h : source.Gives given) {call : Call} (hcall : call ∈ source) :
    ∃ d, call.answer = .datagram d := by
  have hanswer := List.mem_map_of_mem (f := Call.answer) hcall
  rw [h] at hanswer
  obtain ⟨d, -, heq⟩ := List.mem_map.1 hanswer
  exact ⟨d, heq.symm⟩

end Source

namespace ReceiveLoop

variable {l : ReceiveLoop} {source calls : Source} {last : Call}

theorem goesOn_of_gives {given : List RawDatagram} (hreceiver : l.hasReceiver = true)
    (h : calls.Gives given) : l.GoesOn calls := by
  intro earlier call hcalls
  have hmem : call ∈ calls := hcalls.subset (by simp)
  obtain ⟨d, hcall⟩ := h.exists_datagram hmem
  simp only [endsAt, hcall, hreceiver, Bool.not_true, Bool.false_and]

theorem foldl_count_of_gives {given : List RawDatagram} (h : calls.Gives given) (c : Counters) :
    calls.foldl l.count c = (given.map RawDatagram.bytes).foldl l.decoder.addOutcome c := by
  induction calls generalizing given c with
  | nil =>
    obtain rfl : given = [] := List.map_eq_nil_iff.1 h.symm
    rfl
  | cons call rest ih =>
    obtain ⟨d, others, rfl, hcall, hrest⟩ := List.map_eq_cons_iff.1 h.symm
    rw [List.foldl_cons, List.map_cons, List.foldl_cons, count_of_datagram hcall.symm]
    exact ih hrest.symm _

/-- A run to which some datagrams are handed over, numbered from zero on, each reported under its
number and counted once, and which the next call ends, be it that it fails or that there is nothing
more. -/
structure HandsOver (l : ReceiveLoop) (given : List Bytes) (fails : Prop) [Decidable fails]
    (r : Run) : Prop where
  ended : r.ended.isSome
  requests : (r.events.map Prod.snd).countP Event.isRequest = given.length + 1
  reports : (r.events.map Prod.snd).filter Event.isReport =
    (RawDatagram.numbered 0 given).map l.report
  counters : r.counters =
    if fails then (l.decoder.counters given).addTransportError else l.decoder.counters given
  latest : r.latest =
    (given.filterMap fun bytes => (l.decoder.decode bytes).toOption).getLast?

theorem handsOver_of_consumed {given : List Bytes} {fails : Prop} [Decidable fails]
    (hcancel : l.cancelAt = none) (hreceiver : l.hasReceiver = true)
    (hanswers : ∀ call ∈ source, call.wait ≠ .forever)
    (hconsumed : l.Consumed source calls last)
    (hgives : calls.Gives (RawDatagram.numbered 0 given))
    (hfails : fails → ∃ error, last.answer = .failure error)
    (hexhausted : ¬ fails → last.answer = .exhausted) :
    l.HandsOver given fails (l.start source) := by
  have haccounts := accounts_of_consumed hcancel hanswers hconsumed
  have hlast : ∀ d, last.answer ≠ .datagram d := by
    intro d hlast
    by_cases h : fails
    · obtain ⟨error, herror⟩ := hfails h
      simp [hlast] at herror
    · simp [hlast] at hexhausted
      exact h hexhausted
  have hreceived : Source.received (calls ++ [last]) = RawDatagram.numbered 0 given := by
    rw [Source.received_append, hgives.received_eq, Source.received_cons_of_not_datagram hlast]
    exact List.append_nil _
  have hdatagrams : Source.datagrams (calls ++ [last]) = given := by
    rw [Source.datagrams, hreceived, RawDatagram.map_bytes_numbered]
  have hlength : calls.length = given.length := by
    rw [← List.length_map (f := Call.answer), hgives, List.length_map,
      RawDatagram.length_numbered]
  have htally : l.tally calls = l.decoder.counters given := by
    rw [tally, foldl_count_of_gives hgives, RawDatagram.map_bytes_numbered]
    rfl
  have hpublication : l.publication? = fun bytes => (l.decoder.decode bytes).toOption := by
    funext bytes
    rw [publication?, if_pos hreceiver]
  refine ⟨haccounts.ended, ?_, ?_, ?_, ?_⟩
  · rw [haccounts.requests, List.length_append, hlength, List.length_singleton]
  · rw [haccounts.reports, hreceived]
  · rw [haccounts.counters, tally_concat, htally]
    by_cases h : fails
    · obtain ⟨error, herror⟩ := hfails h
      simp only [count, herror, if_pos h]
    · simp only [count, hexhausted h, if_neg h]
  · rw [haccounts.latest, hdatagrams, hpublication]

end ReceiveLoop

/-! ## Replays -/

namespace Replay

open ReceiveLoop

variable {path : String} {file remainder : Bytes} {entries : List Entry} {r : Capture.Reader}

theorem wait_ne_forever_of_mem_calls {speed : Option Binary64} {start sequence : Nat}
    {found : List (Except LinkError Entry)} :
    ∀ call ∈ calls speed start sequence found, call.wait ≠ .forever := by
  induction found generalizing sequence with
  | nil => exact fun _ hcall => by cases hcall
  | cons first rest ih =>
    cases first with
    | error error => exact List.forall_mem_cons.2 ⟨Wait.noConfusion, ih⟩
    | ok entry =>
      refine List.forall_mem_cons.2 ⟨?_, ih⟩
      cases speed <;> simp [call, wait]

theorem map_answer_calls (speed other : Option Binary64) (start otherStart sequence : Nat)
    (found : List (Except LinkError Entry)) :
    (calls speed start sequence found).map Call.answer =
      (calls other otherStart sequence found).map Call.answer := by
  induction found generalizing sequence with
  | nil => rfl
  | cons first rest ih =>
    cases first with
    | error error => exact congrArg (Answer.failure error :: ·) (ih sequence)
    | ok entry => exact congrArg (Answer.datagram ⟨entry.datagram, sequence⟩ :: ·) (ih _)

theorem calls_ok_append (speed : Option Binary64) (start sequence : Nat) (entries : List Entry)
    (behind : List (Except LinkError Entry)) :
    calls speed start sequence (entries.map .ok ++ behind) =
      calls speed start sequence (entries.map .ok) ++
        calls speed start (sequence + entries.length) behind := by
  induction entries generalizing sequence with
  | nil => rfl
  | cons entry rest ih =>
    rw [List.length_cons, Nat.add_comm rest.length, ← Nat.add_assoc]
    exact congrArg (call speed start sequence (.ok entry) :: ·) (ih (sequence + 1))

theorem gives_calls (speed : Option Binary64) (start sequence : Nat) (entries : List Entry) :
    Source.Gives (calls speed start sequence (entries.map .ok))
      (RawDatagram.numbered sequence (entries.map Entry.datagram)) := by
  induction entries generalizing sequence with
  | nil => rfl
  | cons entry rest ih =>
    exact congrArg (Answer.datagram ⟨entry.datagram, sequence⟩ :: ·) (ih (sequence + 1))

theorem source_of_parse (hread : Capture.Reader.ofBytes path file = .ok r)
    (hparse : Parse file entries remainder) (speed : Option Binary64) (start : Nat) :
    source ⟨r, speed, 0⟩ start = calls speed start 0 (entries.map .ok) ++
      calls speed start entries.length
        ((Capture.Reader.breakOff path (Capture.toBytes entries).length remainder).map .error) := by
  have hmagic : magic <+: file := by
    rw [hparse.file_eq, Capture.toBytes, List.append_assoc]
    exact List.prefix_append _ _
  rw [Capture.Reader.ofBytes_of_magic path hmagic] at hread
  obtain rfl := Except.ok.inj hread
  rw [source, Capture.Reader.toList_of_parse path hparse, calls_ok_append, Nat.zero_add]

theorem handsOver_of_parse (decoder : Decoder) (options : LoopOptions)
    (hread : Capture.Reader.ofBytes path file = .ok r) (hparse : Parse file entries remainder)
    (speed : Option Binary64) (start : Nat) :
    HandsOver ⟨decoder, options, none, true⟩ (entries.map Entry.datagram) (remainder ≠ [])
      (ReceiveLoop.start ⟨decoder, options, none, true⟩ (source ⟨r, speed, 0⟩ start)) := by
  have hsource := source_of_parse hread hparse speed start
  have hgives := gives_calls speed start 0 entries
  have hgoesOn : GoesOn ⟨decoder, options, none, true⟩ (calls speed start 0 (entries.map .ok)) :=
    goesOn_of_gives rfl hgives
  have hwaits : ∀ call ∈ source ⟨r, speed, 0⟩ start, call.wait ≠ .forever :=
    wait_ne_forever_of_mem_calls
  by_cases hnil : remainder = []
  · have hconsumed : Consumed ⟨decoder, options, none, true⟩ (source ⟨r, speed, 0⟩ start)
        (calls speed start 0 (entries.map .ok)) .beyond := by
      refine ⟨⟨[], ?_⟩, hgoesOn, rfl⟩
      rw [hsource, hnil, Capture.Reader.breakOff_nil, List.map_nil, calls, List.append_nil,
        List.append_nil]
    exact handsOver_of_consumed rfl rfl hwaits hconsumed hgives (fun h => absurd hnil h)
      (fun _ => rfl)
  · obtain ⟨broken, details, hbroken⟩ :=
      Capture.Reader.exists_breakOff path (Capture.toBytes entries).length hnil
    have hconsumed : Consumed ⟨decoder, options, none, true⟩ (source ⟨r, speed, 0⟩ start)
        (calls speed start 0 (entries.map .ok))
        ⟨.pause 0, .failure (.capture path broken details)⟩ := by
      refine ⟨?_, hgoesOn, rfl⟩
      rw [hsource, hbroken]
      exact List.prefix_append _ _
    exact handsOver_of_consumed rfl rfl hwaits hconsumed hgives (fun _ => ⟨_, rfl⟩)
      (fun h => absurd hnil h)

theorem answers_source_of_parse (hread : Capture.Reader.ofBytes path file = .ok r)
    (hparse : Parse file entries []) (speed : Option Binary64) (start : Nat) :
    (source ⟨r, speed, 0⟩ start).answers =
      (RawDatagram.numbered 0 (entries.map Entry.datagram)).map .datagram ++ [.exhausted] := by
  rw [Source.answers, source_of_parse hread hparse, Capture.Reader.breakOff_nil, List.map_nil,
    calls, List.append_nil, List.map_append, gives_calls]
  rfl

/-- **A replay is faithful, and its pace does not matter.** Of every capture, be it malformed at its
end or not in order of time, a loop is handed the datagrams of the whole entries in their order, and
then it ends. It does the same at every speed. And if the capture was written by a writer, it does
the same as with a source that gives the datagrams which the writer took. -/
theorem start_replays (decoder : Decoder) (options : LoopOptions) (path : String) (file : Bytes)
    (hmagic : magic <+: file) :
    ∃ r entries remainder, Capture.Reader.ofBytes path file = .ok r ∧
      Parse file entries remainder ∧
      ∀ (speed : Option Binary64) (start : Nat),
        let l : ReceiveLoop := ⟨decoder, options, none, true⟩
        let run := l.start (source ⟨r, speed, 0⟩ start)
        l.HandsOver (entries.map Entry.datagram) (remainder ≠ []) run ∧
        (∀ (otherSpeed : Option Binary64) (otherStart : Nat),
          run.Alike (l.start (source ⟨r, otherSpeed, 0⟩ otherStart))) ∧
        ∀ (offers : List Offer) (direct : Source), file = (Writer.empty.offerAll offers).bytes →
          direct.GivesOnly ((offers.filter Offer.isAccepted).map Offer.datagram) →
          (∀ call ∈ direct, call.wait ≠ .forever) → run.Alike (l.start direct) := by
  obtain ⟨entries, remainder, hparse⟩ := Capture.exists_parse hmagic
  have hread := Capture.Reader.ofBytes_of_magic path hmagic
  refine ⟨_, entries, remainder, hread, hparse, fun speed start => ⟨?_, ?_, ?_⟩⟩
  · exact handsOver_of_parse decoder options hread hparse speed start
  · intro otherSpeed otherStart
    refine start_alike rfl wait_ne_forever_of_mem_calls wait_ne_forever_of_mem_calls ⟨[], ?_⟩
    rw [List.append_nil, Source.answers, Source.answers, List.map_append, List.map_append]
    exact congrArg (· ++ [.exhausted]) (map_answer_calls speed otherSpeed start otherStart 0 _)
  · intro offers direct hfile hgives hdirect
    have hwritten := Capture.Reader.parse_offerAll offers
    rw [← hfile] at hwritten
    obtain ⟨rfl, rfl⟩ := hwritten.unique hparse
    refine start_alike rfl wait_ne_forever_of_mem_calls hdirect ?_
    rw [answers_source_of_parse hread hparse, Writer.map_datagram_taken]
    exact hgives

/-- A frame, a datagram without one and with an earlier time, and the beginning of another entry. -/
def torn : Bytes :=
  Capture.toBytes [⟨5, [0x5e, 0xd5, 7, 0x0d, 0x0a]⟩, ⟨1, [0xab]⟩] ++ [9, 0, 0]

theorem start_replays_torn :
    magic <+: torn ∧ ∃ r, Capture.Reader.ofBytes "torn.cap" torn = .ok r ∧
      ∀ speed, (impatient.start (source ⟨r, speed, 0⟩ 0)).ended.isSome ∧
        (impatient.start (source ⟨r, speed, 0⟩ 0)).counters = ⟨2, 1, 1, 0, 0, 0, 0, 1⟩ := by
  have hmagic : magic <+: torn := by decide
  have htorn : Parse torn [⟨5, [0x5e, 0xd5, 7, 0x0d, 0x0a]⟩, ⟨1, [0xab]⟩] [9, 0, 0] := by
    refine ⟨rfl, by simp [Entry.Fits, UInt32.size], ?_⟩
    rw [Capture.startsEntry_iff]
    decide
  obtain ⟨r, entries, remainder, hread, hparse, hreplays⟩ :=
    start_replays impatient.decoder impatient.options "torn.cap" torn hmagic
  obtain ⟨rfl, rfl⟩ := htorn.unique hparse
  refine ⟨hmagic, r, hread, fun speed => ?_⟩
  have hhands := (hreplays speed 0).1
  exact ⟨hhands.ended, hhands.counters.trans (by decide)⟩

end Replay

end Downlink
