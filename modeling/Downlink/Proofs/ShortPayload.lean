import Downlink.Proofs.CheckedDecoding

/-!
# Payloads that are too short

A payload that ends before its layout does is refused at the first field that does not lie within
it. Since the fields stand one behind another, that is the field of the first bit that is missing
(`find?_offsetsFrom_of_covers`). What is said of it can be told from the length of the payload
alone: nothing that was read in front of it plays a part (`unpack_short`).
-/

namespace Downlink

namespace Layout

variable {fields : List Field} {start bits : Nat} {place : Field × Nat}

/-- **The first field that does not lie within so many bits is the one of the next bit.** -/
theorem find?_offsetsFrom_of_covers (hplace : place ∈ offsetsFrom start fields)
    (hcovers : Covers place bits) :
    (offsetsFrom start fields).find? (fun (f, offset) => bits < offset + f.width) = some place := by
  induction fields generalizing start with
  | nil => simp [offsetsFrom] at hplace
  | cons f rest ih =>
    rw [offsetsFrom]
    rcases List.mem_cons.1 hplace with rfl | hrest
    · exact List.find?_cons_of_pos (decide_eq_true hcovers.2)
    · -- The fields behind the first begin where it ends.
      have hbehind : start + f.width ≤ bits :=
        Nat.le_trans (bounds_of_mem_offsetsFrom hrest).1 hcovers.1
      rw [List.find?_cons_of_neg (by simpa using hbehind)]
      exact ih hrest

/-- **A payload that is too short is refused at the first field that does not lie within it.** Of
that field the name, the width and the offset are told, and how many bits remain behind the offset:
there are fewer than the field needs. It does not matter whether bits may be left over; and reading
byte by byte, with every subtraction checked, gives the same refusal. -/
theorem unpack_short (l : Layout) (payload : Bytes) (h : 8 * payload.length < l.frameBits) :
    ∃ f offset remaining,
      l.offsets.find? (fun (f, offset) => 8 * payload.length < offset + f.width) =
        some (f, offset) ∧
      offset + remaining = 8 * payload.length ∧ remaining < f.width ∧
      l.unpack payload = .error (.insufficientBits f.name f.width remaining offset) ∧
      l.unpackExact payload = .error (.insufficientBits f.name f.width remaining offset) ∧
      (Checked.unpack l payload).run =
        some (.error (.insufficientBits f.name f.width remaining offset)) ∧
      (Checked.unpackExact l payload).run =
        some (.error (.insufficientBits f.name f.width remaining offset)) := by
  obtain ⟨f, offset, hmem, hle, hlt, hunpack⟩ := unpack_of_lt h
  have hexact := unpackExact_of_error hunpack
  refine ⟨f, offset, 8 * payload.length - offset, find?_offsetsFrom_of_covers hmem ⟨hle, hlt⟩,
    Nat.add_sub_cancel' hle, by omega, hunpack, hexact, ?_, ?_⟩
  · rw [Checked.unpack_eq, hunpack]
  · rw [Checked.unpackExact_eq, hexact]

/-- Without its last byte, a flight payload lacks just the reserved field, of which no bit
remains. -/
theorem unpack_short_flight :
    8 * (List.replicate 15 (0xff : UInt8)).length < flight.frameBits ∧
    flight.unpack (List.replicate 15 0xff) = .error (.insufficientBits "reserved" 8 0 120) ∧
    flight.unpackExact (List.replicate 15 0xff) =
      .error (.insufficientBits "reserved" 8 0 120) := by
  have hshort : 8 * (List.replicate 15 (0xff : UInt8)).length < flight.frameBits := by decide
  obtain ⟨f, offset, remaining, hfirst, hremaining, -, hunpack, hexact, -⟩ :=
    unpack_short flight (List.replicate 15 0xff) hshort
  have hreserved : flight.offsets.find? (fun (f, offset) =>
      8 * (List.replicate 15 (0xff : UInt8)).length < offset + f.width) =
      some (.padding "reserved" 8, 120) := by
    rfl
  obtain ⟨rfl, rfl⟩ := Prod.mk.inj (Option.some.inj (hfirst.symm.trans hreserved))
  obtain rfl : remaining = 0 := by
    rw [List.length_replicate] at hremaining
    omega
  exact ⟨hshort, hunpack, hexact⟩

end Layout

end Downlink
