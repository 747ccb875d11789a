import Downlink.Capture.Writer

/-!
# What a writer takes

A writer looks at the length of a datagram before it writes anything, so a datagram that it refuses
leaves it as it was (`run_appendInPlace`, `offer_of_refused`). What it has written after some offers
is the capture of those that it took (`offerAll_eq_putAll`). Each of them bears the latest of the
times offered so far (`max?_take_taken`), so a list of entries in order of time is written just as
it is (`taken_of_sorted`).
-/

namespace Downlink.Capture

/-- What a writer is given to append. -/
structure Offer where
  nanoseconds : Nat
  datagram : Bytes
deriving DecidableEq, Repr

namespace Offer

/-- Whether a datagram is short enough for a capture. -/
def isAccepted (o : Offer) : Bool :=
  o.datagram.length ≤ maxDatagram

/-- The time of an offer as far as the format has it. -/
def time (o : Offer) : Nat :=
  min o.nanoseconds Writer.maxTime

def ofEntry (e : Entry) : Offer :=
  ⟨e.time.toNat, e.datagram⟩

end Offer

namespace Writer

variable {w : Writer} {offers : List Offer} {entries : List Entry} {o : Offer} {e : Entry}

/-! ## Appending in place -/

/-- What changes a writer and may fail, which leaves it as it is then. -/
abbrev Writing := ExceptT LinkError (StateM Writer)

def write (part : Bytes) : Writing Unit :=
  modify fun w => { w with bytes := w.bytes ++ part }

/-- Appends an entry part by part. -/
def appendInPlace (o : Offer) : Writing Unit := do
  if maxDatagram < o.datagram.length then throw (tooLong o.datagram.length)
  let time := (← get).clamp o.nanoseconds
  write (littleEndian 8 time.toNat)
  write (littleEndian 4 o.datagram.length)
  write o.datagram
  modify fun w => { w with lastTime := time, entryCount := w.entryCount + 1 }

theorem run_appendInPlace (w : Writer) (o : Offer) :
    (appendInPlace o).run.run w =
      match w.append o.nanoseconds o.datagram with
      | .ok w' => (.ok (), w')
      | .error error => (.error error, w) := by
  unfold appendInPlace append
  split
  · rfl
  · show (Except.ok (), (⟨w.bytes ++ _ ++ _ ++ _, _, _⟩ : Writer)) = _
    simp [put, Entry.toBytes]

/-- A writer after an offer. -/
def offer (w : Writer) (o : Offer) : Writer :=
  ((appendInPlace o).run.run w).2

def offerAll (w : Writer) (offers : List Offer) : Writer :=
  offers.foldl offer w

theorem run_appendInPlace_error_iff (w : Writer) (o : Offer) :
    (∃ error, ((appendInPlace o).run.run w).1 = .error error) ↔ maxDatagram < o.datagram.length := by
  rw [run_appendInPlace, append]
  by_cases h : maxDatagram < o.datagram.length
  · simp [h]
  · simp [h]

theorem offer_of_refused (h : maxDatagram < o.datagram.length) : w.offer o = w := by
  rw [offer, run_appendInPlace, append, if_pos h]

theorem offer_of_accepted (h : ¬ maxDatagram < o.datagram.length) :
    w.offer o = w.put ⟨w.clamp o.nanoseconds, o.datagram⟩ := by
  rw [offer, run_appendInPlace, append, if_neg h]

/-! ## The entries taken -/

/-- The entries that offers come to if none of them is refused. -/
def taken (w : Writer) : List Offer → List Entry
  | [] => []
  | o :: rest =>
    let e : Entry := ⟨w.clamp o.nanoseconds, o.datagram⟩
    e :: (w.put e).taken rest

/-- **What a writer has written are the entries of the offers that it accepted.** -/
theorem offerAll_eq_putAll (w : Writer) (offers : List Offer) :
    w.offerAll offers = w.putAll (w.taken (offers.filter Offer.isAccepted)) := by
  induction offers generalizing w with
  | nil => rfl
  | cons o rest ih =>
    show (w.offer o).offerAll rest = _
    by_cases h : maxDatagram < o.datagram.length
    · have hrefused : o.isAccepted = false := by
        simpa [Offer.isAccepted] using h
      rw [offer_of_refused h, ih, List.filter_cons_of_neg (by simp [hrefused])]
    · have haccepted : o.isAccepted = true := by
        simpa [Offer.isAccepted] using h
      rw [offer_of_accepted h, ih, List.filter_cons_of_pos haccepted]
      rfl

theorem map_datagram_taken (w : Writer) (offers : List Offer) :
    (w.taken offers).map Entry.datagram = offers.map Offer.datagram := by
  induction offers generalizing w with
  | nil => rfl
  | cons o rest ih => simp [taken, ih]

theorem length_le_of_mem_taken (h : e ∈ w.taken (offers.filter Offer.isAccepted)) :
    e.datagram.length ≤ maxDatagram := by
  have hmem := List.mem_map_of_mem (f := Entry.datagram) h
  rw [map_datagram_taken] at hmem
  obtain ⟨o, ho, heq⟩ := List.mem_map.1 hmem
  rw [← heq]
  exact of_decide_eq_true (List.mem_filter.1 ho).2

theorem entryCount_putAll (w : Writer) (entries : List Entry) :
    (w.putAll entries).entryCount = w.entryCount + entries.length := by
  induction entries generalizing w with
  | nil => rfl
  | cons e rest ih =>
    show ((w.put e).putAll rest).entryCount = _
    rw [ih, List.length_cons]
    show w.entryCount + 1 + rest.length = _
    omega

/-! ## Times -/

theorem toNat_clamp (w : Writer) (nanoseconds : Nat) :
    (w.clamp nanoseconds).toNat = max w.lastTime.toNat (min nanoseconds maxTime) := by
  have hlast := w.lastTime.toNat_lt
  have hmax : maxTime = 2 ^ 64 - 1 := rfl
  rw [clamp, UInt64.toNat_ofNat', Nat.mod_eq_of_lt (by omega), Nat.max_comm]

theorem clamp_time (h : w.lastTime ≤ e.time) : w.clamp e.time.toNat = e.time := by
  have hle := UInt64.le_iff_toNat_le.1 h
  have hlt := e.time.toNat_lt
  have hmax : maxTime = 2 ^ 64 - 1 := rfl
  apply UInt64.toNat_inj.1
  rw [toNat_clamp]
  omega

theorem foldl_max_take_taken {i : Nat} (h : (w.taken offers)[i]? = some e) :
    ((offers.take (i + 1)).map Offer.time).foldl max w.lastTime.toNat = e.time.toNat := by
  induction offers generalizing w i with
  | nil => cases h
  | cons o rest ih =>
    cases i with
    | zero =>
      obtain rfl := Option.some.inj h
      exact (toNat_clamp w o.nanoseconds).symm
    | succ i =>
      have hrest := ih h
      rw [List.take_succ_cons, List.map_cons, List.foldl_cons, ← hrest]
      congr 1
      exact (toNat_clamp w o.nanoseconds).symm

theorem max?_take_taken {i : Nat} (h : (empty.taken offers)[i]? = some e) :
    ((offers.take (i + 1)).map Offer.time).max? = some e.time.toNat := by
  rw [← foldl_max_take_taken h]
  cases offers with
  | nil => cases h
  | cons o rest =>
    have hzero : max empty.lastTime.toNat o.time = o.time := Nat.zero_max _
    rw [List.take_succ_cons, List.map_cons, List.max?_cons', List.foldl_cons, hzero]

theorem taken_sorted (w : Writer) (offers : List Offer) :
    (∀ e ∈ w.taken offers, w.lastTime ≤ e.time) ∧
      (w.taken offers).Pairwise fun e f => e.time ≤ f.time := by
  induction offers generalizing w with
  | nil => exact ⟨List.forall_mem_nil _, .nil⟩
  | cons o rest ih =>
    obtain ⟨hlater, hsorted⟩ := ih (w.put ⟨w.clamp o.nanoseconds, o.datagram⟩)
    have hfirst : w.lastTime ≤ w.clamp o.nanoseconds := by
      rw [UInt64.le_iff_toNat_le, toNat_clamp]
      omega
    refine ⟨List.forall_mem_cons.2 ⟨hfirst, fun e he => ?_⟩, .cons hlater hsorted⟩
    exact UInt64.le_trans hfirst (hlater e he)

theorem taken_of_sorted (hlast : ∀ e ∈ entries, w.lastTime ≤ e.time)
    (hsorted : entries.Pairwise fun e f => e.time ≤ f.time) :
    w.taken (entries.map Offer.ofEntry) = entries := by
  induction entries generalizing w with
  | nil => rfl
  | cons e rest ih =>
    obtain ⟨hfirst, hrest⟩ := List.pairwise_cons.1 hsorted
    have htime : w.clamp e.time.toNat = e.time := clamp_time (hlast e List.mem_cons_self)
    simp only [List.map_cons, taken, Offer.ofEntry, htime]
    rw [ih hfirst hrest]

theorem bytes_offerAll_of_sorted (hshort : ∀ e ∈ entries, e.datagram.length ≤ maxDatagram)
    (hsorted : entries.Pairwise fun e f => e.time ≤ f.time) :
    (empty.offerAll (entries.map Offer.ofEntry)).bytes = toBytes entries := by
  have haccepted : (entries.map Offer.ofEntry).filter Offer.isAccepted =
      entries.map Offer.ofEntry := by
    rw [List.filter_eq_self]
    intro o ho
    obtain ⟨e, he, rfl⟩ := List.mem_map.1 ho
    exact decide_eq_true (hshort e he)
  have hlast : ∀ e ∈ entries, empty.lastTime ≤ e.time := fun e _ => UInt64.zero_le
  rw [offerAll_eq_putAll, haccepted, taken_of_sorted hlast hsorted, bytes_eq_toBytes]

end Writer

end Downlink.Capture
