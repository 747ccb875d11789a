import Mathlib.Algebra.GroupWithZero.Nat
import Downlink.Proofs.CaptureReading

/-!
# Captures that are cut off

The first bytes of a capture, however many, are some of its entries and the beginning of the next one
(`exists_cut`). Such a beginning is no entry, whatever the datagram holds (`not_startsEntry_take`), so
the cut capture falls apart there and nowhere else: a reader gives the entries in front of the cut as
they are, and then reports the first part of the next one that is not all there
(`firstCut_brokenPart`). It has nothing to report if the cut is where an entry ends.

This settles what is left of a capture that is cut off anywhere (`Reader.ofBytes_take_reads`).
-/

namespace Downlink.Capture

variable {entries whole behind : List Entry} {e : Entry} {j k : Nat}

/-! ## Where entries end -/

/-- The place behind so many entries of a capture. -/
def placeBehind (entries : List Entry) (count : Nat) : Nat :=
  magic.length + ((entries.take count).map fun e => 12 + e.datagram.length).sum

theorem length_flatMap_toBytes (entries : List Entry) :
    (entries.flatMap Entry.toBytes).length =
      (entries.map fun e => 12 + e.datagram.length).sum := by
  rw [List.length_flatMap]
  simp only [Entry.length_toBytes]

theorem placeBehind_eq (entries : List Entry) (count : Nat) :
    placeBehind entries count = (toBytes (entries.take count)).length := by
  rw [placeBehind, toBytes, List.length_append, length_flatMap_toBytes]

theorem placeBehind_succ {i : Nat} (h : entries[i]? = some e) :
    placeBehind entries (i + 1) = placeBehind entries i + (12 + e.datagram.length) := by
  rw [placeBehind, placeBehind, List.take_add_one, h, Option.toList_some, List.map_append,
    List.sum_append, List.map_singleton, List.sum_singleton, Nat.add_assoc]

theorem placeBehind_le {i count : Nat} (h : i ≤ count) :
    placeBehind entries i ≤ placeBehind entries count := by
  induction h with
  | refl => exact Nat.le_refl _
  | @step count _ ih =>
    refine Nat.le_trans ih ?_
    cases hentry : entries[count]? with
    | some e =>
      rw [placeBehind_succ hentry]
      exact Nat.le_add_right _ _
    | none =>
      refine Nat.le_of_eq ?_
      rw [placeBehind, placeBehind, List.take_add_one, hentry, Option.toList_none, List.append_nil]

/-- So many entries end within the first `k` bytes, and the next one does not. -/
structure Ended (entries : List Entry) (k count : Nat) : Prop where
  le_length : count ≤ entries.length
  place_le : placeBehind entries count ≤ k
  lt_next : count < entries.length → k < placeBehind entries (count + 1)

theorem Ended.lt_iff {count : Nat} (h : Ended entries k count) (i : Nat) :
    i < count ↔ i < entries.length ∧ placeBehind entries (i + 1) ≤ k := by
  constructor
  · intro hi
    have hplace : placeBehind entries (i + 1) ≤ placeBehind entries count := placeBehind_le hi
    exact ⟨Nat.lt_of_lt_of_le hi h.le_length, Nat.le_trans hplace h.place_le⟩
  · rintro ⟨hi, hplace⟩
    refine Nat.lt_of_not_le fun hbehind => ?_
    have hnext := h.lt_next (Nat.lt_of_le_of_lt hbehind hi)
    have hlater : placeBehind entries (count + 1) ≤ placeBehind entries (i + 1) :=
      placeBehind_le (Nat.succ_le_succ hbehind)
    omega

theorem Ended.place_eq_iff {count : Nat} (h : Ended entries k count) :
    k = placeBehind entries count ↔
      k = magic.length ∨ ∃ i < entries.length, k = placeBehind entries (i + 1) := by
  constructor
  · intro hplace
    cases count with
    | zero => exact .inl hplace
    | succ i => exact .inr ⟨i, h.le_length, hplace⟩
  · rintro (hbegin | ⟨i, hi, hplace⟩)
    · have hstart : magic.length ≤ placeBehind entries count := Nat.le_add_right _ _
      exact Nat.le_antisymm (hbegin ▸ hstart) h.place_le
    · have hcount : i < count := (h.lt_iff i).2 ⟨hi, Nat.le_of_eq hplace.symm⟩
      have hbefore : placeBehind entries (i + 1) ≤ placeBehind entries count :=
        placeBehind_le hcount
      exact Nat.le_antisymm (hplace ▸ hbefore) h.place_le

/-! ## The first part that is cut off -/

/-- The parts of an entry, in their order. -/
def Entry.parts (e : Entry) : List Part :=
  [⟨"timestamp", 0, 8⟩, ⟨"length", 8, 4⟩, ⟨"datagram", 12, e.datagram.length⟩]

/-- The first part of an entry at a place that does not lie within the first `k` bytes. -/
def Entry.FirstCut (e : Entry) (place k : Nat) (p : Part) : Prop :=
  ∃ front back, e.parts = front ++ p :: back ∧
    (∀ q ∈ front, place + q.start + q.size ≤ k) ∧ k < place + p.start + p.size

theorem declaredLength_take (he : e.Fits) (h : 12 ≤ j) :
    declaredLength (e.toBytes.take j) = e.datagram.length := by
  have hsame : ((e.toBytes.take j).drop 8).take 4 = ((e.toBytes ++ []).drop 8).take 4 := by
    rw [List.append_nil, List.drop_take, List.take_take, Nat.min_eq_left (by omega)]
  rw [← declaredLength_append he [], declaredLength, declaredLength, hsame]

theorem length_take_toBytes (h : j < e.toBytes.length) : (e.toBytes.take j).length = j := by
  rw [List.length_take, Nat.min_eq_left (Nat.le_of_lt h)]

theorem not_startsEntry_take (he : e.Fits) (h : j < e.toBytes.length) :
    ¬ StartsEntry (e.toBytes.take j) := by
  rw [startsEntry_iff, length_take_toBytes h]
  rw [Entry.length_toBytes] at h
  intro hstarts
  rw [declaredLength_take he (by omega)] at hstarts
  omega

theorem firstCut_brokenPart (he : e.Fits) (h : j < e.toBytes.length) (place : Nat) :
    e.FirstCut place (place + j) (brokenPart (e.toBytes.take j)) := by
  rw [brokenPart, length_take_toBytes h]
  rw [Entry.length_toBytes] at h
  by_cases htime : j < 8
  · rw [if_pos htime]
    refine ⟨[], _, rfl, List.forall_mem_nil _, ?_⟩
    show place + j < place + 0 + 8
    omega
  rw [if_neg htime]
  by_cases hlength : j < 12
  · rw [if_pos hlength]
    refine ⟨[⟨"timestamp", 0, 8⟩], _, rfl, ?_, ?_⟩
    · simp only [List.mem_singleton, forall_eq]
      omega
    · show place + j < place + 8 + 4
      omega
  · rw [if_neg hlength, declaredLength_take he (by omega)]
    refine ⟨[⟨"timestamp", 0, 8⟩, ⟨"length", 8, 4⟩], [], rfl, ?_, ?_⟩
    · simp only [List.mem_cons, List.not_mem_nil, or_false, forall_eq_or_imp, forall_eq]
      omega
    · show place + j < place + 12 + e.datagram.length
      omega

/-! ## Cutting -/

theorem exists_cut (h : k ≤ (entries.flatMap Entry.toBytes).length) :
    ∃ whole behind remainder, entries = whole ++ behind ∧
      (entries.flatMap Entry.toBytes).take k = whole.flatMap Entry.toBytes ++ remainder ∧
      ((behind = [] ∧ remainder = []) ∨ ∃ e rest, behind = e :: rest ∧
        remainder.length < e.toBytes.length ∧ remainder = e.toBytes.take remainder.length) := by
  induction entries generalizing k with
  | nil =>
    exact ⟨[], [], [], rfl, by simp, .inl ⟨rfl, rfl⟩⟩
  | cons e rest ih =>
    rw [List.flatMap_cons, List.length_append] at h
    rw [List.flatMap_cons]
    by_cases hinside : k < e.toBytes.length
    · have hlength := length_take_toBytes hinside
      refine ⟨[], e :: rest, e.toBytes.take k, rfl, ?_, .inr ⟨e, rest, rfl, ?_, ?_⟩⟩
      · rw [List.take_append_of_le_length (Nat.le_of_lt hinside)]
        rfl
      · rw [hlength]
        exact hinside
      · rw [hlength]
    · obtain ⟨whole, behind, remainder, rfl, htake, hend⟩ :=
        ih (k := k - e.toBytes.length) (by omega)
      refine ⟨e :: whole, behind, remainder, rfl, ?_, hend⟩
      rw [List.take_append, List.take_of_length_le (by omega), htake, List.flatMap_cons,
        List.append_assoc]

theorem exists_parse_take (hfits : ∀ e ∈ entries, e.Fits) (hk : magic.length ≤ k)
    (hle : k ≤ (toBytes entries).length) :
    ∃ count remainder, Ended entries k count ∧
      k = placeBehind entries count + remainder.length ∧
      Parse ((toBytes entries).take k) (entries.take count) remainder ∧
      (remainder ≠ [] → ∃ e, entries[count]? = some e ∧ e.Fits ∧
        remainder.length < e.toBytes.length ∧ remainder = e.toBytes.take remainder.length) := by
  have hbody : (toBytes entries).take k =
      magic ++ (entries.flatMap Entry.toBytes).take (k - magic.length) := by
    rw [toBytes, List.take_append, List.take_of_length_le hk]
  have hbodyLe : k - magic.length ≤ (entries.flatMap Entry.toBytes).length := by
    rw [toBytes, List.length_append] at hle
    omega
  obtain ⟨whole, behind, remainder, rfl, htake, hend⟩ := exists_cut hbodyLe
  have hwhole : (whole ++ behind).take whole.length = whole := List.take_left' rfl
  have hfile : (toBytes (whole ++ behind)).take k = toBytes whole ++ remainder := by
    rw [hbody, htake, toBytes, List.append_assoc]
  have hlength : k = placeBehind (whole ++ behind) whole.length + remainder.length := by
    have hlength := congrArg List.length hfile
    rw [List.length_take, Nat.min_eq_left hle, List.length_append] at hlength
    rw [placeBehind_eq, hwhole, hlength]
  refine ⟨whole.length, remainder, ⟨by simp, by omega, fun hmore => ?_⟩, hlength, ?_,
    fun hsome => ?_⟩
  · rcases hend with ⟨rfl, -⟩ | ⟨e, rest, rfl, hshort, -⟩
    · simp at hmore
    · rw [placeBehind_succ (e := e) (by simp), ← Entry.length_toBytes]
      omega
  · rw [hwhole]
    refine ⟨hfile, fun e he => hfits e (List.mem_append_left _ he), ?_⟩
    rcases hend with ⟨-, rfl⟩ | ⟨e, rest, rfl, hshort, hpart⟩
    · rw [startsEntry_iff, List.length_nil]
      omega
    · rw [hpart]
      exact not_startsEntry_take (hfits e List.mem_append_cons_self) hshort
  · rcases hend with ⟨-, hnil⟩ | ⟨e, rest, rfl, hshort, hpart⟩
    · exact absurd hnil hsome
    · exact ⟨e, by simp, hfits e List.mem_append_cons_self, hshort, hpart⟩

namespace Reader

/-! ## Reading what is left -/

/-- What a reader gives of the first `k` bytes of a capture: so many entries, and what it reports
behind them. -/
structure ReadsCut (path : String) (entries : List Entry) (k : Nat) (r : Reader) (count : Nat)
    (reported : List LinkError) : Prop where
  /-- These are the entries that end before the cut. -/
  ended : ∀ i, i < count ↔ i < entries.length ∧ placeBehind entries (i + 1) ≤ k
  /-- It gives them as they are, then what it reports, and then nothing for ever. -/
  answers : ∀ calls, r.answers calls =
    (((entries.take count).map fun e => some (Except.ok e)) ++
      (reported.map fun error => some (Except.error error)) ++ List.replicate calls none).take calls
  /-- It reports nothing just when the cut is behind the magic or behind an entry. -/
  silent_iff : reported = [] ↔
    k = magic.length ∨ ∃ i < entries.length, k = placeBehind entries (i + 1)
  /-- Otherwise it reports one thing: the place of the first part of the next entry that does not lie
  before the cut. -/
  broken : reported ≠ [] → ∃ e p, entries[count]? = some e ∧
    e.FirstCut (placeBehind entries count) k p ∧
    reported = [.capture path (placeBehind entries count + p.start)
      ("truncated " ++ p.name ++ ": need " ++ toString p.size ++ " bytes, "
        ++ toString (k - (placeBehind entries count + p.start)) ++ " left")]

theorem answers_of_parse (path : String) {file remainder : Bytes}
    (h : Parse file entries remainder) (calls : Nat) :
    Reader.answers ⟨path, file.drop magic.length, magic.length, false⟩ calls =
      ((entries.map fun e => some (Except.ok e)) ++
        ((breakOff path (toBytes entries).length remainder).map fun error =>
          some (Except.error error)) ++ List.replicate calls none).take calls := by
  rw [answers_eq_take, toList_of_parse path h, List.map_append, List.map_map, List.map_map]
  rfl

theorem exists_readsCut (path : String) (hfits : ∀ e ∈ entries, e.Fits) (hk : magic.length ≤ k)
    (hle : k ≤ (toBytes entries).length) :
    ∃ r count reported, ofBytes path ((toBytes entries).take k) = .ok r ∧
      ReadsCut path entries k r count reported := by
  obtain ⟨count, remainder, hended, hlength, hparse, hnext⟩ := exists_parse_take hfits hk hle
  have hmagic : magic <+: (toBytes entries).take k := by
    rw [hparse.file_eq, toBytes, List.append_assoc]
    exact List.prefix_append _ _
  have hplace : k = placeBehind entries count ↔ remainder = [] := by
    rw [← List.length_eq_zero_iff]
    omega
  refine ⟨_, count, _, ofBytes_of_magic path hmagic, hended.lt_iff, answers_of_parse path hparse,
    ?_, fun hbroken => ?_⟩
  · rw [← hended.place_eq_iff, hplace, breakOff]
    split
    · next hnil => simp [hnil]
    · next hsome => simp [hsome]
  · have hsome : remainder ≠ [] := by
      rintro rfl
      exact hbroken rfl
    obtain ⟨e, he, hfit, hshort, hpart⟩ := hnext hsome
    have hcut := firstCut_brokenPart hfit hshort (placeBehind entries count)
    rw [← hlength, ← hpart] at hcut
    have hleft : k - (placeBehind entries count + (brokenPart remainder).start) =
        remainder.length - (brokenPart remainder).start := by
      omega
    refine ⟨e, _, he, hcut, ?_⟩
    rw [breakOff, if_neg hsome, ← placeBehind_eq, hleft]

/-- **Of a capture that was written and then cut off anywhere, every whole entry is read,** unchanged
and in order, and then the reader reports where the next entry breaks off, unless none is begun. -/
theorem ofBytes_take_reads (path : String) (offers : List Offer) {k : Nat}
    (hk : magic.length ≤ k) (hle : k ≤ (Writer.empty.offerAll offers).bytes.length) :
    ∃ entries : List Entry,
      (∃ r, ofBytes path (Writer.empty.offerAll offers).bytes = .ok r ∧
        ∀ calls, r.answers calls =
          ((entries.map fun e => some (Except.ok e)) ++ List.replicate calls none).take calls) ∧
      entries.map Entry.datagram = (offers.filter Offer.isAccepted).map Offer.datagram ∧
      ∃ r count reported, ofBytes path ((Writer.empty.offerAll offers).bytes.take k) = .ok r ∧
        ReadsCut path entries k r count reported := by
  have hparse := parse_offerAll offers
  have hfile := hparse.file_eq
  rw [List.append_nil] at hfile
  have hmagic : magic <+: (Writer.empty.offerAll offers).bytes := by
    rw [hfile, toBytes]
    exact List.prefix_append _ _
  refine ⟨Writer.empty.taken (offers.filter Offer.isAccepted),
    ⟨_, ofBytes_of_magic path hmagic, fun calls => ?_⟩, Writer.map_datagram_taken _ _, ?_⟩
  · rw [answers_of_parse path hparse, breakOff_nil, List.map_nil, List.append_nil]
  · rw [hfile] at hle ⊢
    exact exists_readsCut path hparse.fits hk hle

/-- One byte, none, and two. -/
def shrinking : List Offer :=
  [⟨50, [0xab]⟩, ⟨10, []⟩, ⟨70, [0x47, 0x4c]⟩]

/-- The cut is between the time and the length of the third entry. -/
theorem ofBytes_take_reads_shrinking :
    magic.length ≤ 41 ∧ 41 ≤ (Writer.empty.offerAll shrinking).bytes.length ∧
      ∃ r entries count reported,
        ofBytes "cut.cap" ((Writer.empty.offerAll shrinking).bytes.take 41) = .ok r ∧
        ReadsCut "cut.cap" entries 41 r count reported ∧
        r.answers 4 = [some (.ok ⟨50, [0xab]⟩), some (.ok ⟨50, []⟩),
          some (.error (.capture "cut.cap" 41 "truncated length: need 4 bytes, 0 left")), none] := by
  have hmagic : magic.length ≤ 41 := by decide
  have hfile : 41 ≤ (Writer.empty.offerAll shrinking).bytes.length := by decide
  obtain ⟨entries, -, -, r, count, reported, hread, hcut⟩ :=
    ofBytes_take_reads "cut.cap" shrinking hmagic hfile
  refine ⟨hmagic, hfile, r, entries, count, reported, hread, hcut, ?_⟩
  obtain rfl : ⟨"cut.cap", ((Writer.empty.offerAll shrinking).bytes.take 41).drop 8, 8, false⟩ = r :=
    Except.ok.inj hread
  rfl

end Reader

end Downlink.Capture
