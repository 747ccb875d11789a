import Downlink.Capture.Reader
import Downlink.Proofs.CaptureParsing
import Downlink.Proofs.CaptureWriting

/-!
# What a reader reports

A reader reports the entries of a capture one after another. Behind the last of them it reports the
place where the bytes break off, if there are any left, and then nothing for ever
(`toList_of_rest`, `answers_eq_take`). Wherever it is, be it in the middle of an entry, it stands
behind the magic and not behind the end of the file (`Reaches.standsIn`).

`ofBytes_reads` puts this together for every sequence of bytes; `offerAll_reads` is about those
that a writer has written.
-/

namespace Downlink.Capture

namespace Reader

variable {r s : Reader} {file rest remainder : Bytes} {e : Entry} {entries : List Entry}

/-! ## Where a reader stands -/

/-- A reader stands at a place in a file, behind the magic and not behind the end. -/
structure StandsIn (r : Reader) (file : Bytes) : Prop where
  magic_le : magic.length ≤ r.offset
  le_length : r.offset ≤ file.length
  rest_eq : r.rest = file.drop r.offset

/-- What a reader comes to when parts are taken from it or it is asked for entries. All that it is
in the middle of an entry is among this. -/
inductive Reaches : Reader → Reader → Prop
  | refl (r : Reader) : Reaches r r
  | take {r s : Reader} (part : String) (count : Nat) (h : Reaches r s) :
    Reaches r ((Reader.take part count).run.run s).2
  | next {r s : Reader} (h : Reaches r s) : Reaches r s.next.2

theorem StandsIn.length_rest (h : r.StandsIn file) : r.rest.length = file.length - r.offset := by
  rw [h.rest_eq, List.length_drop]

theorem StandsIn.skip (h : r.StandsIn file) {count : Nat} (hcount : count ≤ r.rest.length) :
    (r.skip count).StandsIn file := by
  have hle := h.le_length
  rw [h.length_rest] at hcount
  refine ⟨Nat.le_add_right_of_le h.magic_le, ?_, ?_⟩
  · show r.offset + count ≤ file.length
    omega
  · show r.rest.drop count = file.drop (r.offset + count)
    rw [h.rest_eq, List.drop_drop]

theorem StandsIn.take (h : r.StandsIn file) (part : String) (count : Nat) :
    ((Reader.take part count).run.run r).2.StandsIn file := by
  rw [run_take]
  split
  · exact h.skip ‹_›
  · exact h

theorem StandsIn.takeEntry (h : r.StandsIn file) :
    (Reader.takeEntry.run.run r).2.StandsIn file := by
  rw [run_takeEntry]
  split
  · exact h
  · split
    · exact h.skip (by omega)
    · split
      · exact h.skip (by omega)
      · exact h.skip (by omega)

theorem StandsIn.next (h : r.StandsIn file) : r.next.2.StandsIn file := by
  cases hdone : r.isDone with
  | true =>
    rw [next_of_isDone hdone]
    exact h
  | false =>
    rw [next_of_not_isDone hdone rfl]
    exact ⟨h.takeEntry.magic_le, h.takeEntry.le_length, h.takeEntry.rest_eq⟩

theorem Reaches.standsIn (hreaches : r.Reaches s) (h : r.StandsIn file) : s.StandsIn file := by
  induction hreaches with
  | refl => exact h
  | take part count _ ih => exact ih.take part count
  | next _ ih => exact ih.next

/-! ## One entry -/

theorem run_takeEntry_of_entry (he : e.Fits) (hrest : r.rest = e.toBytes ++ rest) :
    takeEntry.run.run r = (.ok e, r.skip e.toBytes.length) := by
  have hdeclared : declaredLength r.rest = e.datagram.length := by
    rw [hrest, declaredLength_append he]
  have hlength : r.rest.length = 12 + e.datagram.length + rest.length := by
    rw [hrest, List.length_append, Entry.length_toBytes]
  have hfirst : firstEntry r.rest = e := by
    rw [hrest, firstEntry_append he]
  rw [firstEntry, hdeclared] at hfirst
  rw [run_takeEntry, if_neg (by omega), if_neg (by omega), if_neg (by omega), hdeclared, hfirst,
    Entry.length_toBytes]

theorem run_takeEntry_of_broken (h : ¬ StartsEntry r.rest) :
    takeEntry.run.run r =
      (.error ((r.skip (brokenPart r.rest).start).truncated (brokenPart r.rest).name
        (brokenPart r.rest).size), r.skip (brokenPart r.rest).start) := by
  rw [startsEntry_iff] at h
  rw [run_takeEntry, brokenPart]
  by_cases htime : r.rest.length < 8
  · rw [if_pos htime, if_pos htime]
    rfl
  · rw [if_neg htime, if_neg htime]
    by_cases hlength : r.rest.length < 12
    · rw [if_pos hlength, if_pos hlength]
    · rw [if_neg hlength, if_neg hlength, if_pos (by omega)]

/-! ## All entries -/

theorem toList_of_isDone (h : r.isDone = true) : r.toList = [] := by
  rw [toList, next_of_isDone h]

theorem toList_of_next {found : Except LinkError Entry} (h : r.next = (some found, s)) :
    r.toList = found :: s.toList := by
  rw [toList, h]

/-- What is to be reported of bytes at a place that do not begin with an entry. -/
def breakOff (path : String) (place : Nat) (bytes : Bytes) : List LinkError :=
  if bytes = [] then []
  else
    let part := brokenPart bytes
    [.capture path (place + part.start) ("truncated " ++ part.name ++ ": need "
      ++ toString part.size ++ " bytes, " ++ toString (bytes.length - part.start) ++ " left")]

theorem breakOff_nil (path : String) (place : Nat) : breakOff path place [] = [] := rfl

theorem exists_breakOff (path : String) (place : Nat) {bytes : Bytes} (h : bytes ≠ []) :
    ∃ broken details, breakOff path place bytes = [.capture path broken details] := by
  rw [breakOff, if_neg h]
  exact ⟨_, _, rfl⟩

/-- **A reader reports the entries that it has before it, and where the rest breaks off.** -/
theorem toList_of_rest (hfailed : r.failed = false)
    (hrest : r.rest = entries.flatMap Entry.toBytes ++ remainder) (hfits : ∀ e ∈ entries, e.Fits)
    (hbroken : ¬ StartsEntry remainder) :
    r.toList = entries.map .ok ++
      (breakOff r.path (r.offset + (entries.flatMap Entry.toBytes).length) remainder).map .error := by
  induction entries generalizing r with
  | nil =>
    obtain rfl : r.rest = remainder := hrest
    by_cases hnil : r.rest = []
    · have hdone : r.isDone = true := by
        simp [isDone, hnil]
      simp [toList_of_isDone hdone, breakOff, hnil]
    · have hdone : r.isDone = false := isDone_eq_false_iff.2 ⟨hfailed, hnil⟩
      have hnext := next_of_not_isDone hdone (run_takeEntry_of_broken hbroken)
      rw [toList_of_next hnext, toList_of_isDone rfl, breakOff, if_neg hnil]
      simp [truncated, skip]
  | cons e rest ih =>
    obtain ⟨he, hothers⟩ := List.forall_mem_cons.1 hfits
    rw [List.flatMap_cons, List.append_assoc] at hrest
    have hnil : r.rest ≠ [] := by
      intro hnil
      have hlength := e.length_toBytes
      have hempty : e.toBytes = [] := (List.append_eq_nil_iff.1 (hrest.symm.trans hnil)).1
      rw [hempty, List.length_nil] at hlength
      omega
    have hdone : r.isDone = false := isDone_eq_false_iff.2 ⟨hfailed, hnil⟩
    have hnext := next_of_not_isDone hdone (run_takeEntry_of_entry he hrest)
    have hbehind : (r.skip e.toBytes.length).rest = rest.flatMap Entry.toBytes ++ remainder := by
      rw [rest_skip, hrest, List.drop_left' rfl]
    have hmore := ih (r := { r.skip e.toBytes.length with failed := false }) rfl hbehind hothers
    rw [toList_of_next hnext]
    show _ :: toList { r.skip e.toBytes.length with failed := false } = _
    rw [hmore, List.flatMap_cons, List.length_append, ← Nat.add_assoc]
    rfl

/-- What a reader answers when it is asked so many times for the next entry. -/
def answers (r : Reader) : Nat → List (Option (Except LinkError Entry))
  | 0 => []
  | calls + 1 => r.next.1 :: r.next.2.answers calls

/-- **Behind its last report a reader answers that there is nothing, for ever.** -/
theorem answers_eq_take (r : Reader) (calls : Nat) :
    r.answers calls = (r.toList.map some ++ List.replicate calls none).take calls := by
  induction calls generalizing r with
  | zero => rfl
  | succ calls ih =>
    rcases hnext : r.next with ⟨_ | found, s⟩
    · have hdone : r.isDone = true := (next_eq_none_iff r).1 (by rw [hnext])
      have hsame : s = r := by
        rw [next_of_isDone hdone] at hnext
        exact (Prod.mk.inj hnext).2.symm
      rw [answers, hnext, ih, hsame, toList_of_isDone hdone]
      simp [List.replicate_succ]
    · have hlong : calls ≤ (s.toList.map some ++ List.replicate calls none).length := by
        simp
      rw [answers, hnext, ih, toList_of_next hnext, List.map_cons, List.cons_append,
        List.take_succ_cons, List.replicate_succ', ← List.append_assoc,
        List.take_append_of_le_length hlong]

/-! ## Whole files -/

theorem ofBytes_of_magic (path : String) (h : magic <+: file) :
    ofBytes path file = .ok ⟨path, file.drop magic.length, magic.length, false⟩ := by
  rw [ofBytes, if_pos (List.isPrefixOf_iff_prefix.2 h)]

theorem ofBytes_of_not_magic (path : String) (h : ¬ magic <+: file) :
    ofBytes path file = .error (.capture path 0 "missing GLCAPv1 header") := by
  rw [ofBytes, if_neg (mt List.isPrefixOf_iff_prefix.1 h)]

theorem toList_of_parse (path : String) (h : Parse file entries remainder) :
    toList ⟨path, file.drop magic.length, magic.length, false⟩ =
      entries.map .ok ++ (breakOff path (toBytes entries).length remainder).map .error := by
  have hrest : file.drop magic.length = entries.flatMap Entry.toBytes ++ remainder := by
    rw [h.file_eq, toBytes, List.append_assoc, List.drop_left' rfl]
  rw [toList_of_rest rfl hrest h.fits h.broken, toBytes, List.length_append]

/-- **A reader takes every file apart, in the one way there is.** It reports the entries in their
order, then where the remainder breaks off, if there is one, and then nothing for ever. All the
while it stands in the file. And a fresh writer can write the same file again, if there is no
remainder and the entries are such as a writer takes. -/
theorem ofBytes_reads (path : String) (file : Bytes) :
    (¬ magic <+: file →
      ofBytes path file = .error (.capture path 0 "missing GLCAPv1 header")) ∧
    (magic <+: file → ∃ r entries remainder,
      ofBytes path file = .ok r ∧
      Parse file entries remainder ∧
      (∀ more other, Parse file more other → more = entries ∧ other = remainder) ∧
      (∀ more : List Entry, (∀ e ∈ more, e.Fits) → toBytes more <+: file → more <+: entries) ∧
      (∀ calls, r.answers calls =
        ((entries.map fun e => some (Except.ok e)) ++
          ((breakOff path (toBytes entries).length remainder).map fun error =>
            some (Except.error error)) ++
          List.replicate calls none).take calls) ∧
      (∀ s, r.Reaches s → s.StandsIn file) ∧
      (remainder = [] → (∀ e ∈ entries, e.datagram.length ≤ maxDatagram) →
        (entries.Pairwise fun e f => e.time ≤ f.time) →
        (Writer.empty.offerAll (entries.map Offer.ofEntry)).bytes = file)) := by
  refine ⟨ofBytes_of_not_magic path, fun hmagic => ?_⟩
  obtain ⟨entries, remainder, hparse⟩ := exists_parse hmagic
  refine ⟨_, entries, remainder, ofBytes_of_magic path hmagic, hparse,
    fun _ _ => hparse.unique, fun _ => hparse.longest, fun calls => ?_, fun s hs => ?_, ?_⟩
  · rw [answers_eq_take, toList_of_parse path hparse, List.map_append, List.map_map, List.map_map]
    rfl
  · exact hs.standsIn ⟨Nat.le_refl _, hmagic.length_le, rfl⟩
  · rintro rfl hshort hsorted
    rw [Writer.bytes_offerAll_of_sorted hshort hsorted, hparse.file_eq, List.append_nil]

/-- An entry of one byte, and another one of three of which the last is missing. -/
def cutShort : Bytes :=
  magic ++ [1, 0, 0, 0, 0, 0, 0, 0, 1, 0, 0, 0, 0xab] ++
    [2, 0, 0, 0, 0, 0, 0, 0, 3, 0, 0, 0, 0x5e, 0xd5]

theorem ofBytes_reads_cutShort :
    magic <+: cutShort ∧ ∃ r entries remainder,
      ofBytes "cut.cap" cutShort = .ok r ∧ Parse cutShort entries remainder ∧
      r.answers 4 = [some (.ok ⟨1, [0xab]⟩),
        some (.error (.capture "cut.cap" 33 "truncated datagram: need 3 bytes, 2 left")),
        none, none] := by
  have hmagic : magic <+: cutShort := by decide
  obtain ⟨r, entries, remainder, hread, hparse, -⟩ := (ofBytes_reads "cut.cap" cutShort).2 hmagic
  refine ⟨hmagic, r, entries, remainder, hread, hparse, ?_⟩
  obtain rfl : ⟨"cut.cap", cutShort.drop 8, 8, false⟩ = r := Except.ok.inj hread
  rfl

theorem parse_offerAll (offers : List Offer) :
    Parse (Writer.empty.offerAll offers).bytes
      (Writer.empty.taken (offers.filter Offer.isAccepted)) [] where
  file_eq := by
    rw [Writer.offerAll_eq_putAll, Writer.bytes_eq_toBytes, List.append_nil]
  fits := fun _ he => Nat.lt_of_le_of_lt (Writer.length_le_of_mem_taken he) (by decide)
  broken := by
    rw [startsEntry_iff, List.length_nil]
    omega

/-- **What was written is read.** A writer refuses what is too long, which leaves it as it was, and a
reader reports just what it has taken, each entry at the latest of the times offered up to it. -/
theorem offerAll_reads (path : String) (offers : List Offer) :
    (∀ (w : Writer) (o : Offer),
      ((∃ error, ((Writer.appendInPlace o).run.run w).1 = .error error) ↔
        maxDatagram < o.datagram.length) ∧
      (maxDatagram < o.datagram.length → ((Writer.appendInPlace o).run.run w).2 = w)) ∧
    ∃ (r : Reader) (entries : List Entry),
      ofBytes path (Writer.empty.offerAll offers).bytes = .ok r ∧
      (Writer.empty.offerAll offers).entryCount = entries.length ∧
      entries.map Entry.datagram = (offers.filter Offer.isAccepted).map Offer.datagram ∧
      (∀ i e, entries[i]? = some e →
        (((offers.filter Offer.isAccepted).take (i + 1)).map Offer.time).max? =
          some e.time.toNat) ∧
      (entries.Pairwise fun e f => e.time ≤ f.time) ∧
      ∀ calls, r.answers calls =
        ((entries.map fun e => some (Except.ok e)) ++ List.replicate calls none).take calls := by
  have hparse := parse_offerAll offers
  have hmagic : magic <+: (Writer.empty.offerAll offers).bytes := by
    rw [hparse.file_eq, toBytes, List.append_assoc]
    exact List.prefix_append _ _
  refine ⟨fun w o => ⟨Writer.run_appendInPlace_error_iff w o, Writer.offer_of_refused⟩, _, _,
    ofBytes_of_magic path hmagic, ?_, Writer.map_datagram_taken _ _,
    fun _ _ => Writer.max?_take_taken, (Writer.taken_sorted _ _).2, fun calls => ?_⟩
  · rw [Writer.offerAll_eq_putAll, Writer.entryCount_putAll]
    exact Nat.zero_add _
  · rw [answers_eq_take, toList_of_parse path hparse, breakOff, if_pos rfl, List.map_nil,
      List.append_nil, List.map_map]
    rfl

/-- A datagram of one byte more than a capture takes. -/
def overlong : Offer := ⟨70, List.replicate 65536 0⟩

/-- A time that runs backwards, a datagram that is too long, and a time that the format does not
have. -/
def unruly : List Offer :=
  [⟨50, [0xab]⟩, ⟨10, []⟩, overlong, ⟨UInt64.size + 5, [0x47, 0x4c]⟩]

theorem offerAll_reads_unruly :
    maxDatagram < overlong.datagram.length ∧
      ((Writer.appendInPlace overlong).run.run .empty).2 = .empty ∧
      ∃ (r : Reader) (entries : List Entry),
        ofBytes "mem" (Writer.empty.offerAll unruly).bytes = .ok r ∧
        entries.map Entry.datagram = [[0xab], [], [0x47, 0x4c]] ∧
        entries.map (fun e => e.time.toNat) = [50, 50, UInt64.size - 1] := by
  have hlong : maxDatagram < overlong.datagram.length := by
    rw [overlong, List.length_replicate]
    decide
  have haccepted : unruly.filter Offer.isAccepted =
      [⟨50, [0xab]⟩, ⟨10, []⟩, ⟨UInt64.size + 5, [0x47, 0x4c]⟩] := by
    have hrefused : ¬ overlong.isAccepted = true := by
      simpa [Offer.isAccepted] using hlong
    rw [unruly, List.filter_cons_of_pos rfl, List.filter_cons_of_pos rfl,
      List.filter_cons_of_neg hrefused]
    rfl
  obtain ⟨hrefused, r, entries, hread, -, hdatagrams, htimes, -, -⟩ := offerAll_reads "mem" unruly
  rw [haccepted] at hdatagrams htimes
  refine ⟨hlong, (hrefused .empty overlong).2 hlong, r, entries, hread, hdatagrams, ?_⟩
  obtain ⟨a, b, c, rfl⟩ : ∃ a b c, entries = [a, b, c] := by
    obtain ⟨a, _, rfl, -, hbehind⟩ := List.map_eq_cons_iff.1 hdatagrams
    obtain ⟨b, _, rfl, -, hlast⟩ := List.map_eq_cons_iff.1 hbehind
    obtain ⟨c, _, rfl, -, hnil⟩ := List.map_eq_cons_iff.1 hlast
    exact ⟨a, b, c, by rw [List.map_eq_nil_iff.1 hnil]⟩
  have ha := htimes 0 a rfl
  have hb := htimes 1 b rfl
  have hc := htimes 2 c rfl
  simp only [List.map_cons, List.map_nil, ← Option.some.inj ha, ← Option.some.inj hb,
    ← Option.some.inj hc]
  decide

end Reader

end Downlink.Capture
