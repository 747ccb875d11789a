import Downlink.Capture

/-!
# Reading captures

A reader takes one entry after another from the bytes behind the magic, and each of them part by
part. At the first part that is cut off it stays for good: it reports the place where that part
begins, once.

* `run_takeEntry`: all that can become of an entry.
* `next_eq_none_iff`: when nothing is left to report.
* `left_next_lt`: every report brings a reader nearer to its end.
-/

namespace Downlink.Capture

structure Reader where
  /-- The name of the file, for messages. -/
  path : String
  /-- The bytes from the place on. -/
  rest : Bytes
  /-- The number of bytes in front of the place. -/
  offset : Nat
  failed : Bool
deriving DecidableEq, Repr

namespace Reader

/-- A reader behind the magic of a capture; other bytes are no capture. -/
def ofBytes (path : String) (bytes : Bytes) : Except LinkError Reader :=
  if magic.isPrefixOf bytes then .ok ⟨path, bytes.drop magic.length, magic.length, false⟩
  else .error (.capture path 0 "missing GLCAPv1 header")

/-- The reader that many bytes further on. -/
def skip (r : Reader) (count : Nat) : Reader :=
  { r with rest := r.rest.drop count, offset := r.offset + count }

/-- The error over a part that is cut off at the place of a reader. -/
def truncated (r : Reader) (part : String) (count : Nat) : LinkError :=
  .capture r.path r.offset ("truncated " ++ part ++ ": need " ++ toString count ++ " bytes, "
    ++ toString r.rest.length ++ " left")

/-- What moves a reader on and may fail, which leaves it where it is then. -/
abbrev Taking := ExceptT LinkError (StateM Reader)

/-- Takes the bytes of a part of an entry, if there are as many. -/
def take (part : String) (count : Nat) : Taking Bytes := do
  let r ← get
  if count ≤ r.rest.length then
    set (r.skip count)
    return r.rest.take count
  else throw (r.truncated part count)

def takeEntry : Taking Entry := do
  let time ← take "timestamp" 8
  let length ← take "length" 4
  let datagram ← take "datagram" (natOfLittleEndian length)
  return ⟨UInt64.ofNat (natOfLittleEndian time), datagram⟩

def isDone (r : Reader) : Bool :=
  r.failed || r.rest.isEmpty

/-- The next entry or the error that ends the reading; nothing behind either. -/
def next (r : Reader) : Option (Except LinkError Entry) × Reader :=
  if r.isDone then (none, r)
  else
    let (found, r) := takeEntry.run.run r
    (some found, { r with failed := !found.isOk })

/-! ## Taking -/

variable {r : Reader} {part : String} {count : Nat}

theorem run_bind {α β : Type} (first : Taking α) (next : α → Taking β) (r : Reader) :
    (first >>= next).run.run r =
      match first.run.run r with
      | (.ok a, s) => (next a).run.run s
      | (.error e, s) => (.error e, s) := by
  rw [ExceptT.run_bind, StateT.run_bind]
  rcases first.run.run r with ⟨found, s⟩
  cases found <;> rfl

theorem run_take (r : Reader) (part : String) (count : Nat) :
    (take part count).run.run r =
      if count ≤ r.rest.length then (.ok (r.rest.take count), r.skip count)
      else (.error (r.truncated part count), r) := by
  show (if count ≤ r.rest.length then _ else _ : Taking Bytes).run.run r = _
  split <;> rfl

@[simp] theorem rest_skip (r : Reader) (count : Nat) : (r.skip count).rest = r.rest.drop count := rfl

theorem skip_skip (r : Reader) (count more : Nat) :
    (r.skip count).skip more = r.skip (count + more) := by
  simp [skip, Nat.add_assoc]

/-- **All that can become of an entry**: each of its parts may be cut off, or it is whole. -/
theorem run_takeEntry (r : Reader) :
    takeEntry.run.run r =
      if r.rest.length < 8 then (.error (r.truncated "timestamp" 8), r)
      else if r.rest.length < 12 then (.error ((r.skip 8).truncated "length" 4), r.skip 8)
      else if r.rest.length < 12 + declaredLength r.rest then
        (.error ((r.skip 12).truncated "datagram" (declaredLength r.rest)), r.skip 12)
      else
        (.ok ⟨UInt64.ofNat (natOfLittleEndian (r.rest.take 8)),
          (r.rest.drop 12).take (declaredLength r.rest)⟩, r.skip (12 + declaredLength r.rest)) := by
  rw [takeEntry, declaredLength, run_bind, run_take]
  by_cases htime : r.rest.length < 8
  · rw [if_neg (by omega), if_pos htime]
  rw [if_pos (by omega), if_neg htime]
  simp only
  rw [run_bind, run_take, rest_skip, List.length_drop]
  by_cases hlength : r.rest.length < 12
  · rw [if_neg (by omega), if_pos hlength]
  rw [if_pos (by omega), if_neg hlength, skip_skip]
  simp only
  generalize natOfLittleEndian ((r.rest.drop 8).take 4) = length
  rw [run_bind, run_take, rest_skip, List.length_drop]
  by_cases hdatagram : r.rest.length < 12 + length
  · rw [if_neg (by omega), if_pos hdatagram]
  rw [if_pos (by omega), if_neg hdatagram, skip_skip]
  rfl

theorem length_rest_of_takeEntry {s : Reader} {e : Entry}
    (h : takeEntry.run.run r = (.ok e, s)) : s.rest.length + 12 ≤ r.rest.length := by
  rw [run_takeEntry] at h
  split at h
  · cases h
  · split at h
    · cases h
    · split at h
      · cases h
      · cases h
        rw [rest_skip, List.length_drop]
        omega

/-! ## Going on to the end -/

theorem isDone_eq_false_iff : r.isDone = false ↔ r.failed = false ∧ r.rest ≠ [] := by
  simp [isDone]

theorem next_of_isDone (h : r.isDone = true) : r.next = (none, r) := by
  rw [next, if_pos h]

theorem next_of_not_isDone {found : Except LinkError Entry} {s : Reader}
    (hdone : r.isDone = false) (h : takeEntry.run.run r = (found, s)) :
    r.next = (some found, { s with failed := !found.isOk }) := by
  rw [next, if_neg (by simp [hdone]), h]

theorem next_eq_none_iff (r : Reader) : r.next.1 = none ↔ r.isDone := by
  cases hdone : r.isDone with
  | true => simp [next_of_isDone hdone]
  | false => simp [next_of_not_isDone hdone rfl]

/-- How many bytes a reader may still report about. -/
def left (r : Reader) : Nat :=
  if r.failed then 0 else r.rest.length

/-- Every report brings a reader nearer to its end. -/
theorem left_next_lt {s : Reader} {found : Except LinkError Entry}
    (h : r.next = (some found, s)) : s.left < r.left := by
  cases hdone : r.isDone with
  | true => simp [next_of_isDone hdone] at h
  | false =>
    obtain ⟨hfailed, hrest⟩ := isDone_eq_false_iff.1 hdone
    have hleft : r.left = r.rest.length := by
      simp [left, hfailed]
    have hpos : 0 < r.rest.length := List.length_pos_iff.2 hrest
    rcases htake : takeEntry.run.run r with ⟨_, t⟩
    rw [next_of_not_isDone hdone htake] at h
    cases h
    cases found with
    | error error =>
      show 0 < r.left
      omega
    | ok e =>
      have hlength := length_rest_of_takeEntry htake
      show t.rest.length < r.left
      omega

/-- Everything that a reader reports until nothing is left. -/
def toList (r : Reader) : List (Except LinkError Entry) :=
  match _h : r.next with
  | (none, _) => []
  | (some found, s) => found :: s.toList
termination_by r.left
decreasing_by exact left_next_lt _h

end Reader

end Downlink.Capture
