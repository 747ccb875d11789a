import Downlink.Proofs.MarkerSearch

/-!
# Where a frame is found

Where a marker stands first can be said without a search (`Marker.FirstAt`), and so can which
payload a datagram holds (`Markers.Isolates`). Extraction finds just that payload, if there is one;
if not, one of the markers stands nowhere, and it names that marker (`extract_eq_ok_iff_isolates`,
`extract_eq_syncNotFound_iff`, `extract_eq_terminatorNotFound_iff`).

What follows in a datagram does not change what was found in front (`Isolates.append`).
-/

namespace Downlink

namespace Marker

/-- The marker stands at a place and nowhere before it. -/
structure FirstAt (m : Marker) (bytes : Bytes) (place : Nat) : Prop where
  stands : m.toBytes <+: bytes.drop place
  notBefore : ∀ earlier < place, ¬ m.toBytes <+: bytes.drop earlier

variable {m : Marker} {bytes : Bytes} {place : Nat}

theorem starts_iff (m : Marker) (bytes : Bytes) : m.starts bytes = true ↔ m.toBytes <+: bytes := by
  rcases bytes with _ | ⟨a, _ | ⟨b, rest⟩⟩
  · simp [starts, toBytes]
  · simp [starts, toBytes]
  · simp only [starts, toBytes, List.cons_prefix_cons, List.nil_prefix, Bool.and_eq_true,
      beq_iff_eq, and_true]
    constructor <;> exact fun h => ⟨h.1.symm, h.2.symm⟩

theorem find?_eq_some_iff_firstAt (m : Marker) (bytes : Bytes) (place : Nat) :
    m.find? bytes = some place ↔ m.FirstAt bytes place := by
  rw [find?_eq_some_iff]
  constructor
  · rintro ⟨hstarts, hbefore⟩
    refine ⟨(starts_iff m _).1 hstarts, fun earlier hlt hstands => ?_⟩
    rw [← starts_iff, hbefore earlier hlt] at hstands
    cases hstands
  · rintro ⟨hstands, hbefore⟩
    refine ⟨(starts_iff m _).2 hstands, fun earlier hlt => ?_⟩
    rw [Bool.eq_false_iff, Ne, starts_iff]
    exact hbefore earlier hlt

theorem find?_eq_none_iff_not_infix (m : Marker) (bytes : Bytes) :
    m.find? bytes = none ↔ ¬ m.toBytes <:+: bytes := by
  rw [find?_eq_none_iff]
  constructor
  · rintro hnowhere ⟨before, behind, hbytes⟩
    have hplace := hnowhere before.length
    rw [← hbytes, List.append_assoc, List.drop_left, starts_toBytes_append] at hplace
    cases hplace
  · intro hnowhere place
    rw [Bool.eq_false_iff, Ne, starts_iff]
    exact fun hstands => hnowhere (hstands.isInfix.trans (List.drop_suffix place bytes).isInfix)

theorem FirstAt.add_two_le (h : m.FirstAt bytes place) : place + 2 ≤ bytes.length :=
  add_two_le_of_find? ((find?_eq_some_iff_firstAt m bytes place).2 h)

theorem FirstAt.append (h : m.FirstAt bytes place) (more : Bytes) :
    m.FirstAt (bytes ++ more) place := by
  rw [← find?_eq_some_iff_firstAt] at h ⊢
  exact find?_append h more

theorem FirstAt.unique {other : Nat} (h : m.FirstAt bytes place) (hother : m.FirstAt bytes other) :
    place = other := by
  rw [← find?_eq_some_iff_firstAt] at h hother
  exact Option.some.inj (h.symm.trans hother)

theorem FirstAt.isInfix (h : m.FirstAt bytes place) : m.toBytes <:+: bytes :=
  h.stands.isInfix.trans (List.drop_suffix place bytes).isInfix

theorem FirstAt.split (h : m.FirstAt bytes place) :
    bytes = bytes.take place ++ m.toBytes ++ bytes.drop (place + 2) := by
  obtain ⟨behind, hbehind⟩ := h.stands
  have hdrop : bytes.drop (place + 2) = behind := by
    rw [← List.drop_drop, ← hbehind]
    rfl
  rw [hdrop, List.append_assoc, hbehind, List.take_append_drop]

end Marker

namespace Markers

/-- The payload of the first frame: it stands between the first sync marker of a datagram and the
first terminator behind that. -/
def Isolates (m : Markers) (datagram payload : Bytes) : Prop :=
  ∃ before behind,
    datagram = before ++ m.sync.toBytes ++ (payload ++ m.terminator.toBytes ++ behind) ∧
    m.sync.FirstAt datagram before.length ∧
    m.terminator.FirstAt (payload ++ m.terminator.toBytes ++ behind) payload.length

variable {m : Markers} {datagram payload : Bytes}

/-- **The payload that is extracted is the one that stands between the markers.** -/
theorem extract_eq_ok_iff_isolates (m : Markers) (datagram payload : Bytes) :
    m.extract datagram = .ok payload ↔ m.Isolates datagram payload := by
  rw [extract_eq_ok_iff]
  constructor
  · rintro ⟨place, length, hsync, hend, rfl⟩
    rw [Marker.find?_eq_some_iff_firstAt] at hsync hend
    have hplace := hsync.add_two_le
    have hlength := hend.add_two_le
    have htake : ((datagram.drop (place + 2)).take length).length = length := by
      rw [List.length_take]
      omega
    refine ⟨datagram.take place, (datagram.drop (place + 2)).drop (length + 2), ?_, ?_, ?_⟩
    · rw [← hend.split]
      exact hsync.split
    · rw [List.length_take, Nat.min_eq_left (by omega)]
      exact hsync
    · rw [← hend.split, htake]
      exact hend
  · rintro ⟨before, behind, hdatagram, hsync, hend⟩
    have hdrop : datagram.drop (before.length + 2) = payload ++ m.terminator.toBytes ++ behind := by
      rw [hdatagram, List.drop_left' (by simp [Marker.toBytes])]
    rw [← hdrop] at hend
    refine ⟨_, _, (Marker.find?_eq_some_iff_firstAt _ _ _).2 hsync,
      (Marker.find?_eq_some_iff_firstAt _ _ _).2 hend, ?_⟩
    rw [hdrop, List.append_assoc, List.take_left]

theorem extract_eq_syncNotFound_iff (m : Markers) (datagram : Bytes) (marker : Marker)
    (searched : Nat) :
    m.extract datagram = .error (.syncNotFound marker searched) ↔
      ¬ m.sync.toBytes <:+: datagram ∧ marker = m.sync ∧ searched = datagram.length := by
  rw [← Marker.find?_eq_none_iff_not_infix, extract]
  cases m.sync.find? datagram with
  | none => simp [eq_comm]
  | some place => cases hend : m.terminator.find? (datagram.drop (place + 2)) <;> simp [hend]

theorem extract_eq_terminatorNotFound_iff (m : Markers) (datagram : Bytes) (marker : Marker)
    (place searched : Nat) :
    m.extract datagram = .error (.terminatorNotFound marker place searched) ↔
      m.sync.FirstAt datagram place ∧ ¬ m.terminator.toBytes <:+: datagram.drop (place + 2) ∧
        marker = m.terminator ∧ searched = datagram.length - (place + 2) := by
  rw [← Marker.find?_eq_some_iff_firstAt, ← Marker.find?_eq_none_iff_not_infix, extract]
  cases m.sync.find? datagram with
  | none => simp
  | some found =>
    by_cases hplace : found = place
    · subst hplace
      cases hend : m.terminator.find? (datagram.drop (found + 2)) <;> simp [hend, eq_comm]
    · cases hend : m.terminator.find? (datagram.drop (found + 2)) <;> simp [hend, hplace]

theorem Isolates.append (h : m.Isolates datagram payload) (more : Bytes) :
    m.Isolates (datagram ++ more) payload := by
  obtain ⟨before, behind, hdatagram, hsync, hend⟩ := h
  refine ⟨before, behind ++ more, ?_, hsync.append more, ?_⟩
  · rw [hdatagram]
    simp only [List.append_assoc]
  · rw [← List.append_assoc]
    exact hend.append more

end Markers

end Downlink
