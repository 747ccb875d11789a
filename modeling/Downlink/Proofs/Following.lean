import Downlink.Proofs.Interleaving

/-!
# What a subscriber gets

A stream has followed a channel up to the version that it saw last. Up to there it knows records in
their order, and the last of them is the last that was published up to there
(`LatestRecords.Tracks`). What a subscriber knows it has got, or its throttle holds it
(`Follower.Tracks`).

Publishing, closing, subscribing and every single look at the channel keep this, in whatever order
they come. So a subscriber gets records in their order, none of them twice, and one that came to the
end has got the last record (`Broadcast.run_served`).
-/

namespace Downlink

/-! ## Publications -/

/-- Published records with their places. -/
def publicationsOf (published : List Record) : List Publication :=
  published.mapIdx .mk

section Publications

variable {published : List Record} {seen : Nat}

@[simp] theorem length_publicationsOf (published : List Record) :
    (publicationsOf published).length = published.length := by
  simp [publicationsOf]

theorem take_length_publicationsOf (published : List Record) :
    (publicationsOf published).take published.length = publicationsOf published :=
  List.take_of_length_le (Nat.le_of_eq (length_publicationsOf published))

theorem publicationsOf_concat (published : List Record) (record : Record) :
    publicationsOf (published ++ [record]) =
      publicationsOf published ++ [⟨published.length, record⟩] := by
  simp [publicationsOf]

theorem publicationsOf_isPrefix (published more : List Record) :
    publicationsOf published <+: publicationsOf (published ++ more) := by
  rw [publicationsOf, publicationsOf, List.mapIdx_append]
  exact List.prefix_append _ _

theorem take_publicationsOf_append (more : List Record) (hseen : seen ≤ published.length) :
    (publicationsOf (published ++ more)).take seen = (publicationsOf published).take seen := by
  obtain ⟨later, hlater⟩ := publicationsOf_isPrefix published more
  rw [← hlater, List.take_append_of_le_length]
  rw [length_publicationsOf]
  exact hseen

theorem publicationsOf_pairwise (published : List Record) :
    (publicationsOf published).Pairwise fun p q => p.place < q.place := by
  rw [List.pairwise_iff_getElem]
  intro i j hi hj hij
  simpa [publicationsOf] using hij

theorem place_getLast?_take (hseen : seen ≤ published.length) :
    ((publicationsOf published).take seen).getLast?.map Publication.place =
      if seen = 0 then none else some (seen - 1) := by
  rw [List.getLast?_take]
  by_cases hzero : seen = 0
  · simp [hzero]
  · have hlt : seen - 1 < published.length := by
      omega
    simp [hzero, publicationsOf, hlt]

end Publications

/-- A channel holds the last of the publications and counts them. -/
structure RecordChannel.Holds (w : RecordChannel) (published : List Record) : Prop where
  version : w.version = published.length
  value : w.value = (publicationsOf published).getLast?

theorem RecordChannel.Holds.publish {w : RecordChannel} {published : List Record}
    (h : w.Holds published) (record : Record) :
    (w.publish record).Holds (published ++ [record]) where
  version := by
    simp [RecordChannel.publish, Watch.send, h.version]
  value := by
    simp [RecordChannel.publish, Watch.send, publicationsOf_concat, h.version]

theorem Watch.Receiver.changed_eq_closed {α : Type} {r : Watch.Receiver} {w : Watch α}
    (h : r.changed w = .closed) : r.seen = some w.version ∧ w.closed = true := by
  unfold Watch.Receiver.changed at h
  split at h
  · cases h
  · split at h
    · exact ⟨by simpa using ‹¬r.seen ≠ some w.version›, ‹_›⟩
    · cases h

namespace LatestRecords

/-! ## Streams -/

/-- The number of records that were published when a stream last read the channel. -/
def seen (s : LatestRecords) : Nat :=
  s.receiver.seen.getD 0

/-- How far a stream has followed a channel. It began when some records were published, and those
that it knows are those that it has told of, but for some that others replaced. -/
structure Tracks (w : RecordChannel) (published : List Record) (since : Nat)
    (known : List Publication) (s : LatestRecords) (noticed : Option Bool) : Prop where
  since_le : since ≤ published.length
  seen_le : s.seen ≤ published.length
  sublist : known.Sublist (((publicationsOf published).take s.seen).drop (since - 1))
  getLast? : known.getLast? = ((publicationsOf published).take s.seen).getLast?
  last : s.finished = false → s.last = known.getLast?.map Publication.place
  unfinished : noticed.isSome → s.finished = false
  upToDate : noticed = some false ∨ s.finished = true →
    w.closed = true ∧ s.seen = published.length

/-- How many looks it takes a stream at most to come to the end of a closed channel. -/
def toGo (w : RecordChannel) (s : LatestRecords) : Option Bool → Nat
  | some true => 3
  | some false => 1
  | none => if s.finished then 0 else if s.receiver.seen = some w.version then 2 else 4

/-- The records that a look tells of. -/
def told : Option (Poll Publication) → List Publication
  | some (.item p) => [p]
  | _ => []

variable {w : RecordChannel} {published : List Record} {since : Nat} {isOpen : Bool}
  {known fewer : List Publication} {s t : LatestRecords} {noticed : Option Bool}

theorem tracks_new (w : RecordChannel) (published : List Record) :
    Tracks w published published.length [] .new none where
  since_le := Nat.le_refl _
  seen_le := Nat.zero_le _
  sublist := List.nil_sublist _
  getLast? := by
    simp [seen, new, Watch.Receiver.markChanged]
  last := fun _ => rfl
  unfinished := fun hnoticed => by cases hnoticed
  upToDate := by
    rintro (hnoticed | hfinished)
    · cases hnoticed
    · cases hfinished

namespace Tracks

theorem extend (h : s.Tracks w published since known noticed) (more : List Record)
    (hmore : w.closed = true → more = []) {v : RecordChannel}
    (hclosed : w.closed = true → v.closed = true) :
    s.Tracks v (published ++ more) since known noticed := by
  have hlength : (published ++ more).length = published.length + more.length := by
    simp
  have htake := take_publicationsOf_append more h.seen_le
  refine ⟨?_, ?_, ?_, ?_, h.last, h.unfinished, ?_⟩
  · have hsince := h.since_le
    omega
  · have hseen := h.seen_le
    omega
  · rw [htake]
    exact h.sublist
  · rw [htake]
    exact h.getLast?
  · intro hend
    obtain ⟨hw, hseen⟩ := h.upToDate hend
    rw [hmore hw, List.append_nil]
    exact ⟨hclosed hw, hseen⟩

theorem forget (h : s.Tracks w published since known noticed) (hfewer : fewer.Sublist known)
    (hlast : fewer.getLast? = known.getLast?) : s.Tracks w published since fewer noticed :=
  ⟨h.since_le, h.seen_le, hfewer.trans h.sublist, hlast.trans h.getLast?,
    fun hfinished => hlast ▸ h.last hfinished, h.unfinished, h.upToDate⟩

theorem unseen_of_eq (h : s.Tracks w published since known noticed) (hw : w.Holds published)
    (hfinished : s.finished = false) (hseen : s.seen = published.length) : s.unseen w = none := by
  have hlast : s.last = w.value.map Publication.place := by
    rw [h.last hfinished, h.getLast?, hw.value, hseen, take_length_publicationsOf]
  rw [unseen, hlast]
  cases w.value <;> simp

theorem unseen_of_lt (h : s.Tracks w published since known noticed) (hw : w.Holds published)
    (hfinished : s.finished = false) (hseen : s.seen < published.length) :
    ∃ p, s.unseen w = some p ∧
      publicationsOf published = (publicationsOf published).take (published.length - 1) ++ [p] := by
  have hnonempty : publicationsOf published ≠ [] := by
    intro hnil
    have hlength := length_publicationsOf published
    rw [hnil, List.length_nil] at hlength
    omega
  refine ⟨(publicationsOf published).getLast hnonempty, ?_, ?_⟩
  · have hvalue : w.value = some ((publicationsOf published).getLast hnonempty) := by
      rw [hw.value, List.getLast?_eq_some_getLast hnonempty]
    have hplace : w.value.map Publication.place = some (published.length - 1) := by
      have hplace := place_getLast?_take (Nat.le_refl published.length)
      rw [take_length_publicationsOf, if_neg (by omega), ← hw.value] at hplace
      exact hplace
    have hlast : s.last ≠ w.value.map Publication.place := by
      rw [h.last hfinished, h.getLast?, place_getLast?_take h.seen_le, hplace]
      split
      · simp
      · rw [Ne, Option.some.injEq]
        omega
    rw [hvalue] at hlast
    rw [unseen, hvalue, Option.filter_some, if_pos]
    simpa using hlast
  · have hinit := List.dropLast_concat_getLast hnonempty
    rw [List.dropLast_eq_take, length_publicationsOf] at hinit
    exact hinit.symm

theorem reread (h : s.Tracks w published since known noticed) (hw : w.Holds published)
    (hfinished : s.finished = false) (hseen : s.seen = published.length) (finished : Bool)
    (hclosed : finished = true → w.closed = true) :
    Tracks w published since known ⟨.markSeen w, s.last, finished⟩ none := by
  have hversion : seen ⟨.markSeen w, s.last, finished⟩ = s.seen := hw.version.trans hseen.symm
  refine ⟨h.since_le, ?_, ?_, ?_, fun _ => h.last hfinished, (fun hnone => by cases hnone), ?_⟩
  · rw [hversion]
    exact h.seen_le
  · rw [hversion]
    exact h.sublist
  · rw [hversion]
    exact h.getLast?
  · rintro (hnone | hend)
    · cases hnone
    · exact ⟨hclosed hend, hversion.trans hseen⟩

theorem catchUp {p : Publication} (h : s.Tracks w published since known noticed)
    (hw : w.Holds published) (hseen : s.seen < published.length)
    (hp : publicationsOf published = (publicationsOf published).take (published.length - 1) ++ [p]) :
    Tracks w published since (known ++ [p]) ⟨.markSeen w, some p.place, false⟩ none := by
  have hversion : seen ⟨.markSeen w, some p.place, false⟩ = published.length := hw.version
  have hall := take_length_publicationsOf published
  refine ⟨h.since_le, Nat.le_of_eq hversion, ?_, ?_, ?_, (fun hnone => by cases hnone), ?_⟩
  · have hearlier : known.Sublist
        (((publicationsOf published).take (published.length - 1)).drop (since - 1)) := by
      have htake : ((publicationsOf published).take (published.length - 1)).take s.seen =
          (publicationsOf published).take s.seen := by
        rw [List.take_take, Nat.min_eq_left (by omega)]
      refine h.sublist.trans ?_
      rw [← htake]
      exact (List.take_sublist _ _).drop _
    have hdrop : (publicationsOf published).drop (since - 1) =
        ((publicationsOf published).take (published.length - 1)).drop (since - 1) ++ [p] := by
      have hsince := h.since_le
      conv => lhs; rw [hp]
      rw [List.drop_append_of_le_length]
      rw [List.length_take, length_publicationsOf]
      omega
    rw [hversion, hall, hdrop]
    exact hearlier.append (List.Sublist.refl _)
  · rw [hversion, hall, hp, List.getLast?_concat, List.getLast?_concat]
  · intro _
    rw [List.getLast?_concat]
    rfl
  · rintro (hnone | hend)
    · cases hnone
    · cases hend

theorem read (h : s.Tracks w published since known (some isOpen)) (hw : w.Holds published) :
    (s.read w isOpen).2.Tracks w published since (known ++ told (s.read w isOpen).1) none ∧
      ((s.read w isOpen).1 = some .ended → (s.read w isOpen).2.finished = true) := by
  have hfinished := h.unfinished rfl
  rcases Nat.eq_or_lt_of_le h.seen_le with hseen | hseen
  · have hunseen := h.unseen_of_eq hw hfinished hseen
    cases isOpen with
    | true =>
      simp only [LatestRecords.read, hunseen, told, List.append_nil]
      exact ⟨h.reread hw hfinished hseen false (fun hend => by cases hend),
        fun hend => by cases hend⟩
    | false =>
      simp only [LatestRecords.read, hunseen, told, List.append_nil]
      have hclosed := (h.upToDate (.inl rfl)).1
      exact ⟨h.reread hw hfinished hseen true (fun _ => hclosed), fun _ => trivial⟩
  · cases isOpen with
    | true =>
      obtain ⟨p, hunseen, hp⟩ := h.unseen_of_lt hw hfinished hseen
      simp only [LatestRecords.read, hunseen, told]
      exact ⟨h.catchUp hw hseen hp, fun hend => by cases hend⟩
    | false =>
      -- A closed channel is asked for a change only when all was seen.
      have hall := (h.upToDate (.inl rfl)).2
      omega

theorem told_ended (h : s.Tracks w published since known noticed)
    (hfinished : s.finished = true) : (s.ask noticed w).1 = some .ended := by
  cases noticed with
  | some isOpen =>
    have hunfinished := h.unfinished rfl
    rw [hfinished] at hunfinished
    cases hunfinished
  | none => rw [LatestRecords.ask_of_finished hfinished]

theorem ask (h : s.Tracks w published since known noticed) (hw : w.Holds published) :
    (s.ask noticed w).2.1.Tracks w published since (known ++ told (s.ask noticed w).1)
        (s.ask noticed w).2.2 ∧
      ((s.ask noticed w).1 = some .ended → (s.ask noticed w).2.1.finished = true) := by
  cases noticed with
  | some isOpen => exact h.read hw
  | none =>
    cases hfinished : s.finished with
    | true =>
      rw [ask_of_finished hfinished]
      simp only [told, List.append_nil]
      exact ⟨h, fun _ => hfinished⟩
    | false =>
      -- A change may be noticed at any time, the end only when nothing is left to see.
      have hnoticed : ∀ {isOpen : Bool},
          (isOpen = false → w.closed = true ∧ s.seen = published.length) →
          s.Tracks w published since known (some isOpen) := by
        intro isOpen hend
        refine ⟨h.since_le, h.seen_le, h.sublist, h.getLast?, h.last, fun _ => hfinished, ?_⟩
        rintro (hclosed | hfinished')
        · exact hend (Option.some.inj hclosed)
        · exact h.upToDate (.inr hfinished')
      cases hchange : s.receiver.changed w with
      | waiting =>
        rw [ask_of_waiting hfinished hchange]
        simp only [told, List.append_nil]
        exact ⟨h, fun hend => by cases hend⟩
      | changed =>
        rw [ask_of_changed hfinished hchange]
        simp only [told, List.append_nil]
        exact ⟨hnoticed (fun hend => by cases hend), fun hend => by cases hend⟩
      | closed =>
        rw [ask_of_closed hfinished hchange]
        simp only [told, List.append_nil]
        obtain ⟨hseen, hclosed⟩ := Watch.Receiver.changed_eq_closed hchange
        refine ⟨hnoticed fun _ => ⟨hclosed, ?_⟩, fun hend => by cases hend⟩
        rw [seen, hseen]
        exact hw.version

theorem ask_toGo (h : s.Tracks w published since known noticed) (hw : w.Holds published)
    (hclosed : w.closed = true) :
    (s.ask noticed w).1 = some .ended ∨
      (s.ask noticed w).1 ≠ some .waiting ∧
        toGo w (s.ask noticed w).2.1 (s.ask noticed w).2.2 < toGo w s noticed := by
  cases noticed with
  | some isOpen =>
    have hfinished := h.unfinished rfl
    cases isOpen with
    | false =>
      have hunseen := h.unseen_of_eq hw hfinished (h.upToDate (.inl rfl)).2
      simp [LatestRecords.ask, LatestRecords.read, hunseen]
    | true =>
      cases hunseen : s.unseen w <;>
        simp [LatestRecords.ask, LatestRecords.read, hunseen, toGo, Watch.Receiver.markSeen]
  | none =>
    cases hfinished : s.finished with
    | true => exact .inl (h.told_ended hfinished)
    | false =>
      by_cases hseen : s.receiver.seen = some w.version
      · have hchange : s.receiver.changed w = .closed := by
          simp [Watch.Receiver.changed, hseen, hclosed]
        rw [ask_of_closed hfinished hchange]
        simp [toGo, hfinished, hseen]
      · have hchange : s.receiver.changed w = .changed := by
          simp [Watch.Receiver.changed, hseen]
        rw [ask_of_changed hfinished hchange]
        simp [toGo, hfinished, hseen]

end Tracks

end LatestRecords

end Downlink
