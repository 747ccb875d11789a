import Downlink.Frame

/-!
# The first occurrence of a marker

A search gives the first place at which the marker stands (`find?_eq_some_iff`), or tells that it
stands nowhere (`find?_eq_none_iff`). What follows a marker that was found does not move it
(`find?_append`), and a marker that is appended is found no later than where it was put
(`exists_find?_append_toBytes`), though perhaps earlier: its first byte may have closed a marker
that began before.
-/

namespace Downlink

namespace Marker

variable {m : Marker} {bytes : Bytes}

/-! ## Standing at a place -/

theorem two_le_length_of_starts (h : m.starts bytes = true) : 2 ≤ bytes.length := by
  rcases bytes with _ | ⟨a, _ | ⟨b, rest⟩⟩
  · simp [starts] at h
  · simp [starts] at h
  · simp

theorem starts_append (h : 2 ≤ bytes.length) (more : Bytes) :
    m.starts (bytes ++ more) = m.starts bytes := by
  rcases bytes with _ | ⟨a, _ | ⟨b, rest⟩⟩
  · simp at h
  · simp at h
  · rfl

theorem starts_toBytes_append (m : Marker) (more : Bytes) :
    m.starts (m.toBytes ++ more) = true := by
  simp [toBytes, starts]

theorem add_two_le_of_starts_drop {i : Nat} (h : m.starts (bytes.drop i) = true) :
    i + 2 ≤ bytes.length := by
  have := two_le_length_of_starts h
  rw [List.length_drop] at this
  omega

/-! ## Searching -/

theorem go_eq_some_iff (place i : Nat) :
    find?.go m place bytes = some i ↔
      ∃ k, i = place + k ∧ m.starts (bytes.drop k) = true ∧
        ∀ j < k, m.starts (bytes.drop j) = false := by
  induction bytes generalizing place with
  | nil => simp [find?.go, starts]
  | cons b rest ih =>
    rw [find?.go]
    by_cases h : m.starts (b :: rest) = true
    · rw [if_pos h]
      constructor
      · intro hi
        exact ⟨0, by simpa using hi.symm, h, by simp⟩
      · rintro ⟨k, rfl, -, hbefore⟩
        rcases Nat.eq_zero_or_pos k with rfl | hk
        · rfl
        · have := hbefore 0 hk
          simp [h] at this
    · rw [if_neg h, ih]
      constructor
      · rintro ⟨k, rfl, hk, hbefore⟩
        refine ⟨k + 1, by omega, hk, fun j hj => ?_⟩
        rcases j with _ | j
        · simpa using h
        · exact hbefore j (by omega)
      · rintro ⟨k, rfl, hk, hbefore⟩
        rcases k with _ | k
        · exact absurd hk h
        · exact ⟨k, by omega, hk, fun j hj => hbefore (j + 1) (by omega)⟩

theorem find?_eq_some_iff (m : Marker) (bytes : Bytes) (i : Nat) :
    m.find? bytes = some i ↔
      m.starts (bytes.drop i) = true ∧ ∀ j < i, m.starts (bytes.drop j) = false := by
  rw [find?, go_eq_some_iff]
  constructor
  · rintro ⟨k, hk, h⟩
    obtain rfl : i = k := by omega
    exact h
  · intro h
    exact ⟨i, by omega, h⟩

theorem go_eq_none_iff (place : Nat) :
    find?.go m place bytes = none ↔ ∀ i, m.starts (bytes.drop i) = false := by
  induction bytes generalizing place with
  | nil => simp [find?.go, starts]
  | cons b rest ih =>
    rw [find?.go]
    by_cases h : m.starts (b :: rest) = true
    · rw [if_pos h]
      refine ⟨fun hnone => by simp at hnone, fun hall => ?_⟩
      have := hall 0
      simp [h] at this
    · rw [if_neg h, ih]
      refine ⟨fun hrest i => ?_, fun hall i => hall (i + 1)⟩
      rcases i with _ | i
      · simpa using h
      · exact hrest i

theorem find?_eq_none_iff (m : Marker) (bytes : Bytes) :
    m.find? bytes = none ↔ ∀ i, m.starts (bytes.drop i) = false :=
  go_eq_none_iff 0

theorem add_two_le_of_find? {i : Nat} (h : m.find? bytes = some i) : i + 2 ≤ bytes.length :=
  add_two_le_of_starts_drop ((find?_eq_some_iff m bytes i).1 h).1

theorem find?_append {i : Nat} (h : m.find? bytes = some i) (more : Bytes) :
    m.find? (bytes ++ more) = some i := by
  have hlen := add_two_le_of_find? h
  obtain ⟨hi, hbefore⟩ := (find?_eq_some_iff m bytes i).1 h
  -- no place up to `i` is so near the end that the bytes behind it matter
  have hsame : ∀ j ≤ i, m.starts ((bytes ++ more).drop j) = m.starts (bytes.drop j) := by
    intro j hj
    rw [List.drop_append_of_le_length (by omega)]
    exact starts_append (by rw [List.length_drop]; omega) more
  rw [find?_eq_some_iff]
  refine ⟨by rw [hsame i (Nat.le_refl i), hi], fun j hj => ?_⟩
  rw [hsame j (Nat.le_of_lt hj), hbefore j hj]

theorem exists_find?_append_toBytes (m : Marker) (bytes : Bytes) :
    ∃ i ≤ bytes.length, m.find? (bytes ++ m.toBytes) = some i := by
  have hput : m.starts ((bytes ++ m.toBytes).drop bytes.length) = true := by
    rw [List.drop_left]
    exact starts_toBytes_append m []
  cases hfind : m.find? (bytes ++ m.toBytes) with
  | none =>
    rw [(find?_eq_none_iff m _).1 hfind] at hput
    simp at hput
  | some i =>
    refine ⟨i, ?_, rfl⟩
    have := add_two_le_of_find? hfind
    simpa [toBytes] using this

end Marker

end Downlink
