import Downlink.Capture

/-!
# Captures taken apart

The bytes behind the magic begin with an entry exactly when they are as long as they declare
(`startsEntry_iff`), and then it is one entry and no other (`toBytes_append_inj`). So a capture falls
apart in one way only: into as many entries as there are and a remainder that begins with none
(`exists_parse`, `Parse.longest`, `Parse.unique`).
-/

namespace Downlink.Capture

variable {bytes file rest remainder : Bytes} {e : Entry} {entries more : List Entry}

/-! ## One entry -/

/-- An entry whose length can be written down in four bytes. -/
def Entry.Fits (e : Entry) : Prop :=
  e.datagram.length < UInt32.size

def StartsEntry (bytes : Bytes) : Prop :=
  ∃ e : Entry, e.Fits ∧ e.toBytes <+: bytes

/-- The entry that bytes begin with, if they are long enough. -/
def firstEntry (bytes : Bytes) : Entry :=
  ⟨UInt64.ofNat (natOfLittleEndian (bytes.take 8)), (bytes.drop 12).take (declaredLength bytes)⟩

theorem declaredLength_append (he : e.Fits) (rest : Bytes) :
    declaredLength (e.toBytes ++ rest) = e.datagram.length := by
  have hdrop : (e.toBytes ++ rest).drop 8 =
      littleEndian 4 e.datagram.length ++ (e.datagram ++ rest) := by
    simp [Entry.toBytes, List.append_assoc]
  rw [declaredLength, hdrop, List.take_left' (length_littleEndian _ _),
    natOfLittleEndian_littleEndian]
  exact Nat.mod_eq_of_lt he

theorem firstEntry_append (he : e.Fits) (rest : Bytes) : firstEntry (e.toBytes ++ rest) = e := by
  have htime : UInt64.ofNat (natOfLittleEndian ((e.toBytes ++ rest).take 8)) = e.time := by
    have htake : (e.toBytes ++ rest).take 8 = littleEndian 8 e.time.toNat := by
      simp [Entry.toBytes, List.append_assoc]
    have hlt : e.time.toNat < 256 ^ 8 := e.time.toNat_lt
    rw [htake, natOfLittleEndian_littleEndian, Nat.mod_eq_of_lt hlt, UInt64.ofNat_toNat]
  have hdrop : (e.toBytes ++ rest).drop 12 = e.datagram ++ rest := by
    have hparts : e.toBytes ++ rest = littleEndian 8 e.time.toNat ++
        littleEndian 4 e.datagram.length ++ (e.datagram ++ rest) := by
      simp [Entry.toBytes]
    rw [hparts, List.drop_left' (by simp)]
  rw [firstEntry, htime, hdrop, declaredLength_append he, List.take_left' rfl]

theorem toBytes_append_inj {e' : Entry} {rest' : Bytes} (he : e.Fits) (he' : e'.Fits)
    (h : e.toBytes ++ rest = e'.toBytes ++ rest') : e = e' ∧ rest = rest' := by
  have heq : e = e' := by
    rw [← firstEntry_append he rest, h, firstEntry_append he']
  subst heq
  exact ⟨rfl, List.append_cancel_left h⟩

theorem declaredLength_lt (bytes : Bytes) : declaredLength bytes < UInt32.size := by
  have hlt := natOfLittleEndian_lt ((bytes.drop 8).take 4)
  have hle : 256 ^ ((bytes.drop 8).take 4).length ≤ 256 ^ 4 :=
    Nat.pow_le_pow_right (by decide) (List.length_take_le _ _)
  exact Nat.lt_of_lt_of_le hlt hle

theorem littleEndian_natOfLittleEndian_of_length {count : Nat} (h : bytes.length = count) :
    littleEndian count (natOfLittleEndian bytes) = bytes := by
  rw [← h, littleEndian_natOfLittleEndian]

theorem length_firstEntry (h : 12 + declaredLength bytes ≤ bytes.length) :
    (firstEntry bytes).datagram.length = declaredLength bytes := by
  simp only [firstEntry, List.length_take, List.length_drop]
  omega

theorem firstEntry_toBytes_append (h : 12 + declaredLength bytes ≤ bytes.length) :
    (firstEntry bytes).toBytes ++ bytes.drop (12 + declaredLength bytes) = bytes := by
  have htime : littleEndian 8 (firstEntry bytes).time.toNat = bytes.take 8 := by
    have hlength : (bytes.take 8).length = 8 := by
      rw [List.length_take]
      omega
    have hlt : natOfLittleEndian (bytes.take 8) < 2 ^ 64 := by
      have hlt := natOfLittleEndian_lt (bytes.take 8)
      rw [hlength] at hlt
      exact hlt
    rw [firstEntry, UInt64.toNat_ofNat', Nat.mod_eq_of_lt hlt,
      littleEndian_natOfLittleEndian_of_length hlength]
  have hlength : littleEndian 4 (firstEntry bytes).datagram.length = (bytes.drop 8).take 4 := by
    rw [length_firstEntry h, declaredLength, littleEndian_natOfLittleEndian_of_length]
    rw [List.length_take, List.length_drop]
    omega
  calc (firstEntry bytes).toBytes ++ bytes.drop (12 + declaredLength bytes)
      = bytes.take 8 ++ (bytes.drop 8).take 4 ++ ((bytes.drop 12).take (declaredLength bytes) ++
          (bytes.drop 12).drop (declaredLength bytes)) := by
        rw [Entry.toBytes, htime, hlength, List.drop_drop, firstEntry, List.append_assoc]
    _ = bytes.take 8 ++ ((bytes.drop 8).take 4 ++ (bytes.drop 8).drop 4) := by
        rw [List.take_append_drop, List.drop_drop, List.append_assoc]
    _ = bytes := by
        rw [List.take_append_drop, List.take_append_drop]

/-- **Bytes begin with an entry when they are as long as they declare.** -/
theorem startsEntry_iff (bytes : Bytes) :
    StartsEntry bytes ↔ 12 + declaredLength bytes ≤ bytes.length := by
  constructor
  · rintro ⟨e, he, rest, rfl⟩
    rw [declaredLength_append he, List.length_append, Entry.length_toBytes]
    omega
  · intro h
    refine ⟨firstEntry bytes, ?_, bytes.drop (12 + declaredLength bytes),
      firstEntry_toBytes_append h⟩
    rw [Entry.Fits, length_firstEntry h]
    exact declaredLength_lt bytes

/-! ## All entries -/

/-- A capture taken apart: its entries, and a remainder that begins with none. -/
structure Parse (file : Bytes) (entries : List Entry) (remainder : Bytes) : Prop where
  file_eq : file = toBytes entries ++ remainder
  fits : ∀ e ∈ entries, e.Fits
  broken : ¬ StartsEntry remainder

theorem isPrefix_of_flatMap_isPrefix (hmore : ∀ e ∈ more, e.Fits) (hfits : ∀ e ∈ entries, e.Fits)
    (hbroken : ¬ StartsEntry remainder)
    (h : more.flatMap Entry.toBytes <+: entries.flatMap Entry.toBytes ++ remainder) :
    more <+: entries := by
  induction more generalizing entries with
  | nil => exact List.nil_prefix
  | cons e more ih =>
    obtain ⟨he, hothers⟩ := List.forall_mem_cons.1 hmore
    obtain ⟨rest, hrest⟩ := h
    rw [List.flatMap_cons, List.append_assoc] at hrest
    cases entries with
    | nil => exact absurd ⟨e, he, _, hrest⟩ hbroken
    | cons first entries =>
      obtain ⟨hfirst, hfollowing⟩ := List.forall_mem_cons.1 hfits
      rw [List.flatMap_cons, List.append_assoc] at hrest
      obtain ⟨rfl, hbehind⟩ := toBytes_append_inj he hfirst hrest
      exact List.cons_prefix_cons.2 ⟨rfl, ih hothers hfollowing ⟨rest, hbehind⟩⟩

/-- **No other entries can be found in a capture, nor more of them.** -/
theorem Parse.longest (h : Parse file entries remainder) (hmore : ∀ e ∈ more, e.Fits)
    (hfound : toBytes more <+: file) : more <+: entries := by
  rw [h.file_eq, toBytes, toBytes, List.append_assoc, List.prefix_append_right_inj] at hfound
  exact isPrefix_of_flatMap_isPrefix hmore h.fits h.broken hfound

theorem Parse.unique {remainder' : Bytes} (h : Parse file entries remainder)
    (h' : Parse file more remainder') : more = entries ∧ remainder' = remainder := by
  have hle : more <+: entries := h.longest h'.fits ⟨remainder', h'.file_eq.symm⟩
  have hge : entries <+: more := h'.longest h.fits ⟨remainder, h.file_eq.symm⟩
  have heq : more = entries := hle.eq_of_length_le hge.length_le
  subst heq
  exact ⟨rfl, List.append_cancel_left (h'.file_eq.symm.trans h.file_eq)⟩

theorem exists_entries (bytes : Bytes) :
    ∃ (entries : List Entry) (remainder : Bytes), bytes = entries.flatMap Entry.toBytes ++ remainder ∧
      (∀ e ∈ entries, e.Fits) ∧ ¬ StartsEntry remainder := by
  -- Every entry takes bytes away, so there is an end to it.
  induction hlength : bytes.length using Nat.strongRecOn generalizing bytes with
  | ind length ih =>
    by_cases hstarts : StartsEntry bytes
    · obtain ⟨e, he, rest, rfl⟩ := hstarts
      have hshorter : rest.length < length := by
        rw [← hlength, List.length_append, Entry.length_toBytes]
        omega
      obtain ⟨entries, remainder, hrest, hfits, hbroken⟩ := ih _ hshorter rest rfl
      refine ⟨e :: entries, remainder, ?_, List.forall_mem_cons.2 ⟨he, hfits⟩, hbroken⟩
      rw [List.flatMap_cons, List.append_assoc, ← hrest]
    · exact ⟨[], bytes, rfl, List.forall_mem_nil _, hstarts⟩

theorem exists_parse (h : magic <+: file) : ∃ entries remainder, Parse file entries remainder := by
  obtain ⟨body, rfl⟩ := h
  obtain ⟨entries, remainder, rfl, hfits, hbroken⟩ := exists_entries body
  exact ⟨entries, remainder, by rw [toBytes, List.append_assoc], hfits, hbroken⟩

/-! ## Where bytes break off -/

/-- A part of an entry: where it begins in it, and how many bytes it has. -/
structure Part where
  name : String
  start : Nat
  size : Nat
deriving DecidableEq, Repr

/-- The first part that is not whole, of bytes that do not begin with an entry. -/
def brokenPart (bytes : Bytes) : Part :=
  if bytes.length < 8 then ⟨"timestamp", 0, 8⟩
  else if bytes.length < 12 then ⟨"length", 8, 4⟩
  else ⟨"datagram", 12, declaredLength bytes⟩

end Downlink.Capture
