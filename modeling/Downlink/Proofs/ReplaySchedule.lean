import Mathlib.Data.Set.Finite.Lemmas
import Mathlib.Order.Bounds.Basic
import Downlink.Proofs.CaptureReplay
import Downlink.Proofs.ReplayDelays

/-!
# The schedule of a replay

A replay that is under way (`Playing`) is asked again and again. It counts the time from the first
call for a datagram, so the calls that it answers are those of a replay that begins when the loop
does (`play_eq`).

Each datagram has its own moment, which depends on its recorded time and on the speed alone. The
loop is handed it then, or at once if the moment has passed (`step_due`). So the datagram comes when
the last moment up to its own is over (`run_entries`): nothing adds up, neither what is rounded nor
what the datagrams before it took, and a time that goes backwards delays nothing
(`play_keepsTime`).
-/

namespace Downlink

open Capture (Entry Parse magic)

theorem Capture.Reader.isDone_of_next_error {r s : Capture.Reader} {error : LinkError}
    (h : r.next = (some (.error error), s)) : s.isDone = true := by
  cases hdone : r.isDone with
  | true => simp [next_of_isDone hdone] at h
  | false =>
    rcases htake : takeEntry.run.run r with ⟨found, t⟩
    rw [next_of_not_isDone hdone htake] at h
    obtain ⟨hfound, rfl⟩ := Prod.mk.inj h
    obtain rfl := Option.some.inj hfound
    rfl

namespace Replay

/-! ## Replays under way -/

/-- A replay that has been asked for some of its datagrams. -/
structure Playing where
  /-- The entries that are left. -/
  reader : Capture.Reader
  /-- How many times as fast as recorded; none waits for nothing. -/
  speed : Option Binary64
  /-- When the first datagram that has to be waited for was asked for. -/
  started : Option Nat
  /-- Datagrams handed over so far. -/
  sequence : Nat

namespace Playing

variable {p q : Playing} {call : Call} {now : Nat}

/-- What is answered to a call, if anything is left, and what is left then. -/
def ask (p : Playing) (now : Nat) : Option Call × Playing :=
  match p.reader.next with
  | (none, reader) => (none, { p with reader })
  | (some (.error error), reader) => (some ⟨.pause 0, .failure error⟩, { p with reader })
  | (some (.ok entry), reader) =>
    let d : RawDatagram := ⟨entry.datagram, p.sequence⟩
    match p.speed with
    | none => (some ⟨.pause 0, .datagram d⟩, { p with reader, sequence := p.sequence + 1 })
    | some speed =>
      let started := p.started.getD now
      (some ⟨.due (started + millisecondsUp (delay speed entry.time)), .datagram d⟩,
        { p with reader, started := some started, sequence := p.sequence + 1 })

theorem left_ask_lt (h : p.ask now = (some call, q)) : q.reader.left < p.reader.left := by
  rcases hnext : p.reader.next with ⟨_ | found, reader⟩
  · simp [ask, hnext] at h
  have hlt := Capture.Reader.left_next_lt hnext
  have hreader : q.reader = reader := by
    cases found with
    | error error =>
      simp only [ask, hnext, Prod.mk.injEq] at h
      rw [← h.2]
    | ok entry =>
      cases hspeed : p.speed <;> simp only [ask, hnext, hspeed, Prod.mk.injEq] at h <;> rw [← h.2]
  rwa [hreader]

/-- The calls that a replay under way answers if the next is made at a time. -/
def calls (p : Playing) (now : Nat) : Source :=
  Replay.source ⟨p.reader, p.speed, p.sequence⟩ (p.started.getD now)

end Playing

end Replay

namespace ReceiveLoop

open Replay (Playing)

/-- The run of a loop that asks a replay under way. -/
def play (l : ReceiveLoop) (s : State) (p : Playing) : Run :=
  match _h : p.ask s.now with
  | (none, _) => ⟨[(s.now, .requested)], some s.now⟩
  | (some call, q) =>
    match l.step s call with
    | (events, .stop ended) => ⟨events, ended⟩
    | (events, .go t) => (l.play t q).after events
termination_by p.reader.left
decreasing_by exact Playing.left_ask_lt _h

end ReceiveLoop

namespace Replay.Playing

open ReceiveLoop

variable {p q : Playing} {call : Call} {now later : Nat}

theorem calls_unpaced (start later sequence : Nat) (found : List (Except LinkError Entry)) :
    Replay.calls none start sequence found = Replay.calls none later sequence found := by
  induction found generalizing sequence with
  | nil => rfl
  | cons first rest ih => cases first <;> rw [Replay.calls, Replay.calls, ih] <;> rfl

theorem calls_of_ask_eq_none (h : p.ask now = (none, q)) : p.calls now = [] := by
  rcases hnext : p.reader.next with ⟨_ | _ | entry, reader⟩
  · have hdone : p.reader.isDone = true := (p.reader.next_eq_none_iff).1 (by rw [hnext])
    rw [calls, source, Capture.Reader.toList_of_isDone hdone]
    rfl
  · simp [ask, hnext] at h
  · cases hspeed : p.speed <;> simp [ask, hnext, hspeed] at h

/-- Behind an answer the calls do not depend on when the next is made: the time counts already, or
it does not matter. -/
theorem calls_of_ask_eq_some (h : p.ask now = (some call, q)) (later : Nat) :
    p.calls now = call :: q.calls later := by
  rcases hnext : p.reader.next with ⟨_ | error | entry, reader⟩
  · simp [ask, hnext] at h
  · simp only [ask, hnext, Prod.mk.injEq, Option.some.injEq] at h
    obtain ⟨rfl, rfl⟩ := h
    have hdone : reader.isDone = true := Capture.Reader.isDone_of_next_error hnext
    rw [calls, calls, source, source, Capture.Reader.toList_of_next hnext,
      Capture.Reader.toList_of_isDone hdone]
    rfl
  · rw [calls, source, Capture.Reader.toList_of_next hnext]
    cases hspeed : p.speed with
    | none =>
      simp only [ask, hnext, hspeed, Prod.mk.injEq, Option.some.injEq] at h
      obtain ⟨rfl, rfl⟩ := h
      exact congrArg (_ :: ·) (calls_unpaced _ _ _ _)
    | some speed =>
      simp only [ask, hnext, hspeed, Prod.mk.injEq, Option.some.injEq] at h
      obtain ⟨rfl, rfl⟩ := h
      rfl

end Replay.Playing

namespace ReceiveLoop

open Replay (Playing)

/-- **A replay under way is the list of its calls.** Whatever a loop does with them, it makes no
difference that the time counts from the first call for a datagram only. -/
theorem play_eq (l : ReceiveLoop) (s : State) (p : Playing) :
    l.play s p = l.run s (p.calls s.now) := by
  induction s, p using play.induct l with
  | case1 s p q hask => rw [play, hask, Playing.calls_of_ask_eq_none hask, run]
  | case2 s p call q hask events ended hstep =>
    rw [Playing.calls_of_ask_eq_some hask 0, run_cons_stop hstep]
    rw [play, hask]
    simp only [hstep]
  | case3 s p call q hask events t hstep ih =>
    rw [Playing.calls_of_ask_eq_some hask t.now, run_cons_go hstep, ← ih]
    rw [play, hask]
    simp only [hstep]

end ReceiveLoop

/-! ## The moments of a replay -/

namespace Replay

variable {speed : Binary64} {entries front behind : List Entry} {entry : Entry}

/-- The moment of an entry in a replay that begins at zero, in whole milliseconds. -/
def due (speed : Binary64) (entry : Entry) : Nat :=
  millisecondsUp (delay speed entry.time)

/-- When the moments of some entries are over, the time being `now`. -/
def overAt (speed : Binary64) (now : Nat) (entries : List Entry) : Nat :=
  entries.foldl (fun time entry => max time (due speed entry)) now

theorem millisecondsUp_mono : Monotone millisecondsUp :=
  fun _ _ h => Nat.div_le_div_right (Nat.add_le_add_right h _)

theorem overAt_append (speed : Binary64) (now : Nat) (entries more : List Entry) :
    overAt speed now (entries ++ more) = overAt speed (overAt speed now entries) more :=
  List.foldl_append

theorem le_overAt (speed : Binary64) (now : Nat) (entries : List Entry) :
    now ≤ overAt speed now entries := by
  induction entries generalizing now with
  | nil => exact Nat.le_refl _
  | cons entry rest ih => exact (Nat.le_max_left now (due speed entry)).trans (ih _)

theorem due_le_overAt (speed : Binary64) (now : Nat) (h : entry ∈ entries) :
    due speed entry ≤ overAt speed now entries := by
  obtain ⟨front, behind, rfl⟩ := List.append_of_mem h
  rw [overAt_append]
  exact (Nat.le_max_right _ _).trans (le_overAt _ _ behind)

theorem overAt_eq_or (speed : Binary64) (now : Nat) (entries : List Entry) :
    overAt speed now entries = now ∨
      ∃ entry ∈ entries, due speed entry = overAt speed now entries := by
  induction entries generalizing now with
  | nil => exact .inl rfl
  | cons entry rest ih =>
    show overAt speed (max now (due speed entry)) rest = now ∨
      ∃ other ∈ entry :: rest, due speed other = overAt speed (max now (due speed entry)) rest
    rcases ih (max now (due speed entry)) with heq | ⟨other, hother, hdue⟩
    · rw [heq]
      rcases Nat.le_total now (due speed entry) with hle | hle
      · exact .inr ⟨entry, List.mem_cons_self, (Nat.max_eq_right hle).symm⟩
      · exact .inl (Nat.max_eq_left hle)
    · exact .inr ⟨other, List.mem_cons_of_mem _ hother, hdue⟩

/-- **The moments are over when the last of them is.** -/
theorem isGreatest_overAt (h : entries ≠ []) :
    IsGreatest {time | ∃ entry ∈ entries, due speed entry = time} (overAt speed 0 entries) := by
  refine ⟨?_, ?_⟩
  · rcases overAt_eq_or speed 0 entries with hzero | hdue
    · -- Nothing is waited for, so the moment of every entry is zero.
      obtain ⟨entry, rest, rfl⟩ := List.exists_cons_of_ne_nil h
      have hle : due speed entry ≤ overAt speed 0 (entry :: rest) :=
        due_le_overAt speed 0 List.mem_cons_self
      refine ⟨entry, List.mem_cons_self, ?_⟩
      omega
    · exact hdue
  · rintro _ ⟨entry, hentry, rfl⟩
    exact due_le_overAt speed 0 hentry

theorem overAt_concat_of_le (now : Nat) {earlier : Entry} (hearlier : earlier ∈ front)
    (hle : due speed entry ≤ due speed earlier) :
    overAt speed now (front ++ [entry]) = overAt speed now front := by
  rw [overAt_append]
  exact Nat.max_eq_left (hle.trans (due_le_overAt speed now hearlier))

/-- When each of some entries is handed over, and under which number, to a loop that asks for the
first of them at `now` and counts on from `number`. -/
def timetable (l : ReceiveLoop) (speed : Binary64) (now number : Nat) (entries : List Entry) :
    List ReceiveLoop.TimedEvent :=
  entries.mapIdx fun i entry =>
    (overAt speed now (entries.take (i + 1)), l.report ⟨entry.datagram, number + i⟩)

theorem timetable_cons (l : ReceiveLoop) (speed : Binary64) (now number : Nat) (entry : Entry)
    (rest : List Entry) :
    timetable l speed now number (entry :: rest) =
      (max now (due speed entry), l.report ⟨entry.datagram, number⟩) ::
        timetable l speed (max now (due speed entry)) (number + 1) rest := by
  have hbehind : (fun (i : Nat) (later : Entry) =>
      (overAt speed now ((entry :: rest).take (i + 1 + 1)),
        l.report ⟨later.datagram, number + (i + 1)⟩)) =
      fun i later => (overAt speed (max now (due speed entry)) (rest.take (i + 1)),
        l.report ⟨later.datagram, number + 1 + i⟩) := by
    funext i later
    rw [Nat.add_assoc number 1 i, Nat.add_comm 1 i]
    rfl
  rw [timetable, List.mapIdx_cons, hbehind]
  rfl

end Replay

/-! ## Runs on schedule -/

namespace ReceiveLoop

open Replay

variable {l : ReceiveLoop} {s : State}

/-- The reports of a run with their times. -/
def Run.reports (r : Run) : List TimedEvent :=
  r.events.filter (·.2.isReport)

/-- When the source is asked for a datagram. -/
def Run.asked (r : Run) : List Nat :=
  (r.events.filter (·.2.isRequest)).map Prod.fst

/-- **A datagram is handed over when its moment has come, or at once if that has passed.** It does
not matter whether it can be decoded. -/
theorem step_due (hcancel : l.cancelAt = none) (hreceiver : l.hasReceiver = true) (s : State)
    (moment : Nat) (d : RawDatagram) :
    ∃ events t, l.step s ⟨.due moment, .datagram d⟩ = (events, .go t) ∧
      t.now = max s.now moment ∧
      events.filter (·.2.isReport) = [(max s.now moment, l.report d)] ∧
      events.filter (·.2.isRequest) = [(s.now, .requested)] := by
  have hwait : l.waitUntil (Wait.end? s.now (.due moment)) = .over (max s.now moment) := by
    simp [waitUntil, Wait.end?, hcancel]
  cases hdecode : l.decoder.decode d.bytes with
  | ok record =>
    have hstep : l.step s ⟨.due moment, .datagram d⟩ =
        ([(s.now, .requested), (max s.now moment, .counted s.counters.addRecord),
          (max s.now moment, .accepted d record), (max s.now moment, .published record)],
          .go ⟨max s.now moment, 0, s.counters.addRecord⟩) := by
      simp [step, hwait, receive, hdecode, hreceiver]
    refine ⟨_, _, hstep, rfl, ?_, rfl⟩
    simp [Event.isReport, report, hdecode]
  | error error =>
    have hstep : l.step s ⟨.due moment, .datagram d⟩ =
        ([(s.now, .requested), (max s.now moment, .counted (s.counters.addFailure error)),
          (max s.now moment, .rejected d error)],
          .go ⟨max s.now moment, 0, s.counters.addFailure error⟩) := by
      simp [step, hwait, receive, hdecode]
    refine ⟨_, _, hstep, rfl, ?_, rfl⟩
    simp [Event.isReport, report, hdecode]

theorem run_breakOff (hcancel : l.cancelAt = none) (s : State) (speed : Option Binary64)
    (start sequence : Nat) (path : String) (place : Nat) (bytes : Bytes) :
    let r := l.run s (Replay.calls speed start sequence
      ((Capture.Reader.breakOff path place bytes).map .error))
    r.reports = [] ∧ r.asked = [s.now] ∧ r.ended = some s.now := by
  by_cases hnil : bytes = []
  · rw [hnil, Capture.Reader.breakOff_nil]
    exact ⟨rfl, rfl, rfl⟩
  · obtain ⟨broken, details, hbroken⟩ := Capture.Reader.exists_breakOff path place hnil
    have hstep : l.step s ⟨.pause 0, .failure (.capture path broken details)⟩ =
        ([(s.now, .requested), (s.now, .counted s.counters.addTransportError)],
          .stop (some s.now)) := by
      simp [step, Wait.end?, waitUntil, hcancel, recover, givesUp, LinkError.isRetryable]
    rw [hbroken, List.map_singleton, Replay.calls, Replay.call, run_cons_stop hstep]
    exact ⟨rfl, rfl, rfl⟩

/-- **A run is handed the entries by the timetable**, whatever ends it behind them at once. -/
theorem run_entries (hcancel : l.cancelAt = none) (hreceiver : l.hasReceiver = true)
    (speed : Binary64) (sequence : Nat) (entries : List Entry) (behind : Source)
    (hbehind : ∀ s, (l.run s behind).reports = [] ∧ (l.run s behind).asked = [s.now] ∧
      (l.run s behind).ended = some s.now) (s : State) :
    let r := l.run s (Replay.calls (some speed) 0 sequence (entries.map .ok) ++ behind)
    r.reports = timetable l speed s.now sequence entries ∧
      r.asked = s.now :: r.reports.map Prod.fst ∧
      r.ended = some (overAt speed s.now entries) := by
  induction entries generalizing s sequence with
  | nil =>
    obtain ⟨hreports, hasked, hended⟩ := hbehind s
    refine ⟨hreports, ?_, hended⟩
    rw [List.map_nil, Replay.calls, List.nil_append, hasked, hreports, List.map_nil]
  | cons entry rest ih =>
    obtain ⟨events, t, hstep, hnow, hreport, hrequest⟩ :=
      step_due hcancel hreceiver s (0 + due speed entry) ⟨entry.datagram, sequence⟩
    rw [Nat.zero_add] at hnow hreport
    obtain ⟨hreports, hasked, hended⟩ := ih (sequence + 1) t
    have hrun : l.run s (Replay.calls (some speed) 0 sequence ((entry :: rest).map .ok) ++
        behind) = Run.after events
          (l.run t (Replay.calls (some speed) 0 (sequence + 1) (rest.map .ok) ++ behind)) :=
      run_cons_go hstep _
    rw [hnow] at hreports hasked hended
    simp only [hrun]
    refine ⟨?_, ?_, hended⟩
    · rw [timetable_cons, ← hreports, Run.reports, Run.after, List.filter_append, hreport]
      rfl
    · rw [Run.asked, Run.reports, Run.after, List.filter_append, List.filter_append, hrequest,
        hreport, List.map_append, List.map_append]
      exact congrArg (s.now :: ·) hasked

/-- When the datagrams are handed over, in order. -/
def Run.handed (r : Run) : List Nat :=
  r.reports.map Prod.fst

end ReceiveLoop

namespace Replay

open ReceiveLoop

variable {l : ReceiveLoop} {speed : Binary64} {entries front behind : List Entry} {entry : Entry}

/-- An entry whose delay is not longer than that of one before it. -/
def IsLate (speed : Binary64) (front : List Entry) (entry : Entry) : Prop :=
  ∃ earlier ∈ front, delay speed entry.time ≤ delay speed earlier.time

/-- A run that is handed the entries of a capture at their own moments. -/
structure KeepsTime (l : ReceiveLoop) (speed : Binary64) (entries : List Entry) (r : Run) :
    Prop where
  /-- All entries are handed over, in order and numbered from zero on. -/
  reports : r.reports.map Prod.snd =
    (RawDatagram.numbered 0 (entries.map Entry.datagram)).map l.report
  /-- Each is when the last moment up to its own is over. -/
  last : ∀ place < entries.length, ∃ time, r.handed[place]? = some time ∧
    IsGreatest {moment | ∃ entry ∈ entries.take (place + 1),
      millisecondsUp (delay speed entry.time) = moment} time
  /-- It does not matter whether each delay is rounded up or the longest one only. -/
  longest : ∀ place < entries.length, ∃ longest,
    r.handed[place]? = some (millisecondsUp longest) ∧
      IsGreatest {nanoseconds | ∃ entry ∈ entries.take (place + 1),
        delay speed entry.time = nanoseconds} longest
  /-- One with the longest delay so far is handed over at its own moment, whatever was before. -/
  punctual : ∀ place entry, entries[place]? = some entry →
    (∀ earlier ∈ entries.take place, delay speed earlier.time ≤ delay speed entry.time) →
      r.handed[place]? = some (millisecondsUp (delay speed entry.time))
  /-- One that is late is handed over with the one before it. -/
  late : ∀ place entry, entries[place]? = some entry → IsLate speed (entries.take place) entry →
    r.handed[place]? = r.handed[place - 1]?
  /-- The next is asked for when one has been handed over. -/
  asked : r.asked = 0 :: r.handed
  ended : r.ended = some (r.handed.getLast?.getD 0)

theorem map_snd_timetable (l : ReceiveLoop) (speed : Binary64) (entries : List Entry) :
    (timetable l speed 0 0 entries).map Prod.snd =
      (RawDatagram.numbered 0 (entries.map Entry.datagram)).map l.report := by
  apply List.ext_getElem?
  intro place
  simp only [timetable, RawDatagram.numbered, List.getElem?_map, List.getElem?_mapIdx,
    List.getElem?_zipIdx, Option.map_map, Nat.zero_add]
  rfl

theorem map_fst_timetable (l : ReceiveLoop) (speed : Binary64) (entries : List Entry)
    (place : Nat) : ((timetable l speed 0 0 entries).map Prod.fst)[place]? =
      entries[place]?.map fun _ => overAt speed 0 (entries.take (place + 1)) := by
  rw [timetable, List.getElem?_map, List.getElem?_mapIdx, Option.map_map]
  rfl

/-- The moments are over with the longest of the delays, rounded up. -/
theorem exists_longest (speed : Binary64) (h : entries ≠ []) :
    ∃ longest, overAt speed 0 entries = millisecondsUp longest ∧
      IsGreatest {nanoseconds | ∃ entry ∈ entries, delay speed entry.time = nanoseconds}
        longest := by
  obtain ⟨entry, hentry, hmost⟩ := Set.exists_max_image {entry | entry ∈ entries}
    (fun entry => delay speed entry.time) entries.finite_toSet (List.exists_mem_of_ne_nil _ h)
  have hgreatest : IsGreatest
      {nanoseconds | ∃ entry ∈ entries, delay speed entry.time = nanoseconds}
      (delay speed entry.time) := by
    refine ⟨⟨entry, hentry, rfl⟩, ?_⟩
    rintro _ ⟨other, hother, rfl⟩
    exact hmost other hother
  refine ⟨_, ?_, hgreatest⟩
  apply (isGreatest_overAt h).unique
  refine ⟨⟨entry, hentry, rfl⟩, ?_⟩
  rintro _ ⟨other, hother, rfl⟩
  exact millisecondsUp_mono (hmost other hother)

theorem take_succ_of_getElem? {place : Nat} (h : entries[place]? = some entry) :
    entries.take (place + 1) = entries.take place ++ [entry] := by
  rw [List.take_add_one, h]
  rfl

theorem take_succ_ne_nil {place : Nat} (h : place < entries.length) :
    entries.take (place + 1) ≠ [] := by
  rw [take_succ_of_getElem? (List.getElem?_eq_getElem h)]
  exact List.append_ne_nil_of_right_ne_nil _ (List.cons_ne_nil _ _)

/-- **A run by the timetable keeps time.** -/
theorem keepsTime_of_timetable {r : Run} (hreports : r.reports = timetable l speed 0 0 entries)
    (hasked : r.asked = 0 :: r.reports.map Prod.fst)
    (hended : r.ended = some (overAt speed 0 entries)) : KeepsTime l speed entries r := by
  have hhanded : ∀ place, r.handed[place]? =
      entries[place]?.map fun _ => overAt speed 0 (entries.take (place + 1)) := by
    intro place
    rw [Run.handed, hreports, map_fst_timetable]
  have hat : ∀ place < entries.length,
      r.handed[place]? = some (overAt speed 0 (entries.take (place + 1))) := by
    intro place hplace
    rw [hhanded, List.getElem?_eq_getElem hplace, Option.map_some]
  refine ⟨?_, ?_, ?_, ?_, ?_, hasked, ?_⟩
  · rw [hreports, map_snd_timetable]
  · intro place hplace
    exact ⟨_, hat place hplace, isGreatest_overAt (take_succ_ne_nil hplace)⟩
  · intro place hplace
    obtain ⟨longest, hover, hgreatest⟩ := exists_longest speed (take_succ_ne_nil hplace)
    exact ⟨longest, by rw [hat place hplace, hover], hgreatest⟩
  · intro place entry hentry hmost
    rw [hhanded, hentry, Option.map_some]
    congr 1
    apply (isGreatest_overAt (take_succ_ne_nil (List.getElem?_eq_some_iff.1 hentry).1)).unique
    rw [take_succ_of_getElem? hentry]
    refine ⟨⟨entry, List.mem_concat_self, rfl⟩, ?_⟩
    rintro _ ⟨other, hother, rfl⟩
    rcases List.mem_append.1 hother with hearlier | hself
    · exact millisecondsUp_mono (hmost other hearlier)
    · obtain rfl := List.mem_singleton.1 hself
      exact Nat.le_refl _
  · rintro place entry hentry ⟨earlier, hearlier, hle⟩
    have hplace := (List.getElem?_eq_some_iff.1 hentry).1
    have hpos : 0 < place := by
      rcases Nat.eq_zero_or_pos place with rfl | hpos
      · simp at hearlier
      · exact hpos
    rw [hat place hplace, hat (place - 1) (by omega), Nat.sub_add_cancel hpos,
      take_succ_of_getElem? hentry, overAt_concat_of_le 0 hearlier (millisecondsUp_mono hle)]
  · rw [hended, List.getLast?_eq_getElem?]
    have hlength : r.handed.length = entries.length := by
      rw [Run.handed, hreports, timetable, List.length_map, List.length_mapIdx]
    rw [hlength]
    rcases Nat.eq_zero_or_pos entries.length with hzero | hpos
    · obtain rfl := List.eq_nil_of_length_eq_zero hzero
      rw [hhanded]
      rfl
    · rw [hat _ (by omega), Nat.sub_add_cancel hpos, List.take_length]
      rfl

theorem map_fst_timetable_of_isLate (l : ReceiveLoop) (h : IsLate speed front entry)
    (behind : List Entry) :
    (timetable l speed 0 0 (front ++ behind)).map Prod.fst =
      ((timetable l speed 0 0 (front ++ entry :: behind)).map Prod.fst).eraseIdx front.length := by
  obtain ⟨earlier, hearlier, hle⟩ := h
  apply List.ext_getElem?
  intro place
  rw [List.getElem?_eraseIdx]
  simp only [map_fst_timetable]
  split
  · next hplace =>
    rw [List.getElem?_append_left hplace, List.getElem?_append_left hplace,
      List.take_append_of_le_length (by omega), List.take_append_of_le_length (by omega)]
  · next hplace =>
    obtain ⟨more, rfl⟩ := Nat.exists_eq_add_of_le (Nat.le_of_not_lt hplace)
    have hcut : (front ++ entry :: behind).take (front.length + more + 1 + 1) =
        (front ++ [entry]) ++ behind.take (more + 1) := by
      rw [show front.length + more + 1 + 1 = front.length + (more + 1 + 1) by omega,
        List.take_length_add_append, List.take_succ_cons, List.append_assoc]
      rfl
    have hrest : (front ++ entry :: behind)[front.length + more + 1]? = behind[more]? := by
      rw [Nat.add_assoc, List.getElem?_append_right (by omega), Nat.add_sub_cancel_left,
        List.getElem?_cons_succ]
    rw [hrest, hcut, overAt_append, overAt_concat_of_le 0 hearlier (millisecondsUp_mono hle),
      List.getElem?_append_right (by omega), Nat.add_sub_cancel_left, Nat.add_assoc,
      List.take_length_add_append, overAt_append]

/-! ## Replays of captures -/

theorem play_of_parse (decoder : Decoder) (options : LoopOptions) {path : String}
    {file remainder : Bytes} {r : Capture.Reader}
    (hread : Capture.Reader.ofBytes path file = .ok r) (hparse : Parse file entries remainder)
    (speed : Binary64) :
    let l : ReceiveLoop := ⟨decoder, options, none, true⟩
    let run := l.play .start ⟨r, some speed, none, 0⟩
    run.reports = timetable l speed 0 0 entries ∧ run.asked = 0 :: run.reports.map Prod.fst ∧
      run.ended = some (overAt speed 0 entries) := by
  intro l run
  have hrun : run = l.run .start (source ⟨r, some speed, 0⟩ 0) := l.play_eq _ _
  rw [hrun, source_of_parse hread hparse]
  exact run_entries rfl rfl speed 0 entries _
    (fun s => run_breakOff rfl s (some speed) 0 entries.length path _ remainder) .start

/-- **A replay keeps an absolute schedule.** Of every capture and at every speed, each datagram is
handed to the decoder when the last moment up to its own is over. The moments count from the first
call, which is the start of the run, and no lateness and no rounding adds up. So what is late delays
nothing behind it: without it the others would come when they come with it. And what was recorded at
an earlier time than an entry before it is late, at every speed that a replay can have. -/
theorem play_keepsTime (decoder : Decoder) (options : LoopOptions) (path : String) (file : Bytes)
    (hmagic : magic <+: file) :
    ∃ r entries remainder, Capture.Reader.ofBytes path file = .ok r ∧
      Parse file entries remainder ∧
      ∀ speed : Binary64,
        let l : ReceiveLoop := ⟨decoder, options, none, true⟩
        let run := l.play .start ⟨r, some speed, none, 0⟩
        run = l.start (source ⟨r, some speed, 0⟩ 0) ∧
        KeepsTime l speed entries run ∧
        (∀ front entry behind, entries = front ++ entry :: behind → IsLate speed front entry →
          ∀ other otherPath otherFile otherRemainder,
            Capture.Reader.ofBytes otherPath otherFile = .ok other →
            Parse otherFile (front ++ behind) otherRemainder →
            (l.play .start ⟨other, some speed, none, 0⟩).handed = run.handed.eraseIdx front.length) ∧
        ∀ wanted front entry, speed = clamp wanted →
          (∃ earlier ∈ front, entry.time ≤ earlier.time) → IsLate speed front entry := by
  obtain ⟨entries, remainder, hparse⟩ := Capture.exists_parse hmagic
  have hread := Capture.Reader.ofBytes_of_magic path hmagic
  refine ⟨_, entries, remainder, hread, hparse, fun speed => ⟨?_, ?_, ?_, ?_⟩⟩
  · exact play_eq _ _ _
  · obtain ⟨hreports, hasked, hended⟩ := play_of_parse decoder options hread hparse speed
    exact keepsTime_of_timetable hreports hasked hended
  · rintro front entry behind rfl hlate other otherPath otherFile otherRemainder hother hparse'
    rw [Run.handed, Run.handed, (play_of_parse decoder options hread hparse speed).1,
      (play_of_parse decoder options hother hparse' speed).1,
      map_fst_timetable_of_isLate _ hlate behind]
  · rintro wanted front entry rfl ⟨earlier, hearlier, hle⟩
    exact ⟨earlier, hearlier, delay_mono (moderate_clamp wanted) hle⟩

/-- A frame after a tenth of a second, a datagram without one that was recorded earlier, another
frame after a quarter, and the beginning of another entry. -/
def backwards : Bytes :=
  Capture.toBytes [⟨100000000, [0x5e, 0xd5, 7, 0x0d, 0x0a]⟩, ⟨40000000, [0xab]⟩,
    ⟨250000000, [0x5e, 0xd5, 8, 0x0d, 0x0a]⟩] ++ [9, 0, 0]

theorem play_keepsTime_backwards :
    magic <+: backwards ∧ ∃ r, Capture.Reader.ofBytes "backwards.cap" backwards = .ok r ∧
      (impatient.play .start ⟨r, some (clamp (.ofNat 4)), none, 0⟩).handed = [25, 25, 63] := by
  have hmagic : magic <+: backwards := by decide
  have hbackwards : Parse backwards [⟨100000000, [0x5e, 0xd5, 7, 0x0d, 0x0a]⟩,
      ⟨40000000, [0xab]⟩, ⟨250000000, [0x5e, 0xd5, 8, 0x0d, 0x0a]⟩] [9, 0, 0] := by
    refine ⟨rfl, by simp [Entry.Fits, UInt32.size], ?_⟩
    rw [Capture.startsEntry_iff]
    decide
  obtain ⟨r, entries, remainder, hread, hparse, hreplays⟩ :=
    play_keepsTime impatient.decoder impatient.options "backwards.cap" backwards hmagic
  obtain ⟨rfl, rfl⟩ := hbackwards.unique hparse
  refine ⟨hmagic, r, hread, ?_⟩
  have hkeeps : KeepsTime impatient (clamp (.ofNat 4)) _
      (impatient.play .start ⟨r, some (clamp (.ofNat 4)), none, 0⟩) :=
    (hreplays (clamp (.ofNat 4))).2.1
  have hfirst := hkeeps.punctual 0 _ rfl (by decide)
  have hsecond := hkeeps.late 1 _ rfl ⟨_, List.mem_cons_self, by decide +kernel⟩
  have hthird := hkeeps.punctual 2 _ rfl (by decide +kernel)
  have hlength := congrArg List.length hkeeps.reports
  rw [List.length_map, ← List.length_map (f := Prod.fst)] at hlength
  obtain ⟨first, second, third, hhanded⟩ := List.length_eq_three.1 hlength
  have hten : millisecondsUp (delay (clamp (.ofNat 4)) 100000000) = 25 := by decide +kernel
  have hquarter : millisecondsUp (delay (clamp (.ofNat 4)) 250000000) = 63 := by decide +kernel
  rw [Run.handed, hhanded] at hfirst hsecond hthird ⊢
  obtain rfl : first = 25 := Option.some.inj (hfirst.trans (congrArg some hten))
  obtain rfl : second = 25 := Option.some.inj hsecond
  obtain rfl : third = 63 := Option.some.inj (hthird.trans (congrArg some hquarter))
  rfl

end Replay

end Downlink
