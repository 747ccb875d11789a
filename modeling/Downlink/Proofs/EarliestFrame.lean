import Downlink.Proofs.FrameSearch

/-!
# The earliest frame

A datagram that has a frame falls into noise, a sync marker, a payload, a terminator and what
follows, where each marker stands for the first time that it can (`Markers.Divides`). It does so in
one way only (`Divides.unique`), and that is how extraction divides it.

Whatever stands in front of the first sync marker is noise, a terminator too, and the marker's own
bytes are no part of a terminator. So the payload depends on the bytes behind the first sync marker
and on nothing else: the noise may be any other, and so may be the marker (`toOption_extract`).
-/

namespace Downlink

namespace Markers

variable {m : Markers} {datagram before payload behind rest : Bytes}

/-! ## The parts of a datagram -/

/-- The parts of a datagram with a frame. The first sync marker stands behind the noise, and the
first terminator in what follows that marker stands behind the payload. -/
structure Divides (m : Markers) (datagram before payload behind : Bytes) : Prop where
  whole : datagram = before ++ m.sync.toBytes ++ (payload ++ m.terminator.toBytes ++ behind)
  sync : m.sync.FirstAt datagram before.length
  terminator : m.terminator.FirstAt (payload ++ m.terminator.toBytes ++ behind) payload.length

theorem isolates_iff_divides :
    m.Isolates datagram payload ↔ ∃ before behind, m.Divides datagram before payload behind := by
  constructor
  · rintro ⟨before, behind, hwhole, hsync, hend⟩
    exact ⟨before, behind, hwhole, hsync, hend⟩
  · rintro ⟨before, behind, h⟩
    exact ⟨before, behind, h.whole, h.sync, h.terminator⟩

theorem Divides.unique {before' payload' behind' : Bytes}
    (h : m.Divides datagram before payload behind)
    (h' : m.Divides datagram before' payload' behind') :
    before = before' ∧ payload = payload' ∧ behind = behind' := by
  have hnoise : before.length = before'.length := h.sync.unique h'.sync
  have hsync : (before ++ m.sync.toBytes).length = (before' ++ m.sync.toBytes).length := by
    rw [List.length_append, List.length_append, hnoise]
  obtain ⟨hfront, hrest⟩ := List.append_inj (h.whole.symm.trans h'.whole) hsync
  have hend := h'.terminator
  rw [← hrest] at hend
  have hlength : payload.length = payload'.length := h.terminator.unique hend
  have hterminator :
      (payload ++ m.terminator.toBytes).length = (payload' ++ m.terminator.toBytes).length := by
    rw [List.length_append, List.length_append, hlength]
  obtain ⟨hframe, hbehind⟩ := List.append_inj hrest hterminator
  exact ⟨List.append_cancel_right hfront, List.append_cancel_right hframe, hbehind⟩

/-! ## What stands behind the sync marker -/

/-- **The payload is the first one behind the first sync marker,** whatever stands in front. -/
theorem toOption_extract (hsync : m.sync.FirstAt (before ++ m.sync.toBytes ++ rest) before.length) :
    (m.extract (before ++ m.sync.toBytes ++ rest)).toOption =
      (m.terminator.find? rest).map rest.take := by
  have hrest : (before ++ m.sync.toBytes ++ rest).drop (before.length + 2) = rest :=
    List.drop_left' (by simp [Marker.toBytes])
  rw [extract, (Marker.find?_eq_some_iff_firstAt _ _ _).2 hsync]
  simp only [hrest]
  cases m.terminator.find? rest <;> rfl

theorem add_two_add_eq_iff {place searched : Nat} (h : m.sync.FirstAt datagram place) :
    searched = datagram.length - (place + 2) ↔ place + 2 + searched = datagram.length := by
  have := h.add_two_le
  omega

/-! ## What is found -/

/-- What is found in a datagram is its earliest frame. -/
structure FindsEarliest (m : Markers) (datagram : Bytes) (result : Except FramingError Bytes) :
    Prop where
  /-- A payload is found if it is a part of the datagram. -/
  ok : ∀ payload, result = .ok payload ↔
    ∃ before behind, m.Divides datagram before payload behind
  /-- There is one such payload at most, at one place. -/
  unique : ∀ before payload behind before' payload' behind',
    m.Divides datagram before payload behind → m.Divides datagram before' payload' behind' →
    before = before' ∧ payload = payload' ∧ behind = behind'
  /-- No sync marker is found if it occurs nowhere in the whole datagram. -/
  syncNotFound : ∀ marker searched, result = .error (.syncNotFound marker searched) ↔
    ¬ m.sync.toBytes <:+: datagram ∧ marker = m.sync ∧ searched = datagram.length
  /-- No terminator is found if it occurs nowhere in the bytes behind the first sync marker, which
  are all those that the marker and the noise leave. -/
  terminatorNotFound : ∀ marker place searched,
    result = .error (.terminatorNotFound marker place searched) ↔
      m.sync.FirstAt datagram place ∧ ¬ m.terminator.toBytes <:+: datagram.drop (place + 2) ∧
        marker = m.terminator ∧ place + 2 + searched = datagram.length
  /-- With other noise in front, and with another sync marker, the same payload is found. -/
  behind : ∀ before rest, datagram = before ++ m.sync.toBytes ++ rest →
    m.sync.FirstAt datagram before.length → ∀ (sync : Marker) (noise : Bytes),
      sync.FirstAt (noise ++ sync.toBytes ++ rest) noise.length →
      (extract ⟨sync, m.terminator⟩ (noise ++ sync.toBytes ++ rest)).toOption = result.toOption

/-- **Extraction finds the earliest frame of a datagram,** or tells which marker is missing and where
it was looked for. This holds for all markers, also for two that are equal or that overlap
themselves or each other. -/
theorem extract_earliest (m : Markers) (datagram : Bytes) :
    m.FindsEarliest datagram (m.extract datagram) where
  ok := by
    intro payload
    rw [extract_eq_ok_iff_isolates, isolates_iff_divides]
  unique := fun _ _ _ _ _ _ h h' => h.unique h'
  syncNotFound := extract_eq_syncNotFound_iff m datagram
  terminatorNotFound := by
    intro marker place searched
    rw [extract_eq_terminatorNotFound_iff]
    refine and_congr_right fun hsync => ?_
    rw [add_two_add_eq_iff hsync]
  behind := by
    rintro before rest rfl hsync sync noise hother
    rw [toOption_extract hsync]
    exact toOption_extract (m := ⟨sync, m.terminator⟩) hother

/-- A terminator in front, markers that share a byte, and a sync marker that could end with a
terminator: the payload begins behind the first sync marker, and it is empty. -/
example : extract ⟨⟨0xab, 0xab⟩, ⟨0xab, 0xcd⟩⟩ [0xab, 0xcd, 0xab, 0xab, 0xab, 0xcd, 0xcd] =
    .ok [] := by
  rfl

end Markers

end Downlink
