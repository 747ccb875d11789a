import Downlink.Proofs.PayloadReading

/-!
# Places in a layout

The fields of a layout stand one behind another, from the first bit of a payload to the end of the
layout. So each bit up to there belongs to a field (`exists_covers`), and to no other one
(`covers_unique`): it is a bit of a reserved field or of a reported one (`hasBit_false_iff`).

What a field is read from are its bits and nothing else (`take_drop_eq_iff`).
-/

namespace Downlink

/-! ## Bytes and their bits -/

namespace Bits

variable {bytes : Bytes} {count : Nat}

theorem ofBytes_append (front behind : Bytes) :
    ofBytes (front ++ behind) = ofBytes front ++ ofBytes behind :=
  List.flatMap_append

theorem ofBytes_take (h : count ≤ bytes.length) :
    ofBytes (bytes.take count) = (ofBytes bytes).take (8 * count) := by
  have hsplit := ofBytes_append (bytes.take count) (bytes.drop count)
  rw [List.take_append_drop] at hsplit
  rw [hsplit, List.take_left']
  rw [length_ofBytes, List.length_take, Nat.min_eq_left h]

theorem ofBytes_drop (h : count ≤ bytes.length) :
    ofBytes (bytes.drop count) = (ofBytes bytes).drop (8 * count) := by
  have hsplit := ofBytes_append (bytes.take count) (bytes.drop count)
  rw [List.take_append_drop] at hsplit
  rw [hsplit, List.drop_left']
  rw [length_ofBytes, List.length_take, Nat.min_eq_left h]

end Bits

namespace Layout

/-! ## Fields and their bits -/

/-- A bit is one of the field at a place. -/
def Covers (place : Field × Nat) (i : Nat) : Prop :=
  place.2 ≤ i ∧ i < place.2 + place.1.width

/-- A bit is one of a field of the layout, a reserved field or one that is reported. -/
def HasBit (l : Layout) (reserved : Bool) (i : Nat) : Prop :=
  ∃ place ∈ l.offsets, place.1.reserved = reserved ∧ Covers place i

instance (place : Field × Nat) (i : Nat) : Decidable (Covers place i) :=
  inferInstanceAs (Decidable (_ ∧ _))

instance (l : Layout) (reserved : Bool) (i : Nat) : Decidable (l.HasBit reserved i) :=
  inferInstanceAs (Decidable (∃ place ∈ l.offsets, _ ∧ _))

variable {l : Layout} {fields : List Field} {start i : Nat} {place other : Field × Nat}
  {reserved : Bool}

theorem bounds_of_mem_offsetsFrom (h : place ∈ offsetsFrom start fields) :
    start ≤ place.2 ∧ place.2 + place.1.width ≤ start + totalWidth fields := by
  induction fields generalizing start with
  | nil => simp [offsetsFrom] at h
  | cons f rest ih =>
    rw [totalWidth_cons]
    rcases List.mem_cons.1 h with rfl | hrest
    · exact ⟨Nat.le_refl start, by simp only; omega⟩
    · have hbounds := ih hrest
      omega

theorem exists_covers (hstart : start ≤ i) (h : i < start + totalWidth fields) :
    ∃ place ∈ offsetsFrom start fields, Covers place i := by
  induction fields generalizing start with
  | nil =>
    rw [totalWidth_nil] at h
    omega
  | cons f rest ih =>
    rw [totalWidth_cons] at h
    by_cases hf : i < start + f.width
    · exact ⟨(f, start), List.mem_cons_self, hstart, hf⟩
    · obtain ⟨place, hplace, hcovers⟩ := ih (Nat.le_of_not_lt hf) (by omega)
      exact ⟨place, List.mem_cons_of_mem _ hplace, hcovers⟩

theorem covers_unique (hplace : place ∈ offsetsFrom start fields)
    (hother : other ∈ offsetsFrom start fields) (hi : Covers place i) (hi' : Covers other i) :
    place = other := by
  induction fields generalizing start with
  | nil => simp [offsetsFrom] at hplace
  | cons f rest ih =>
    -- A bit of the first field is in front of all bits of the others.
    have hbehind : ∀ {p : Field × Nat}, p ∈ offsetsFrom (start + f.width) rest → Covers p i →
        ¬ Covers (f, start) i := by
      intro p hp hcovers hfirst
      have hbounds := bounds_of_mem_offsetsFrom hp
      simp only [Covers] at hcovers hfirst
      omega
    rcases List.mem_cons.1 hplace with rfl | hplace
    · rcases List.mem_cons.1 hother with rfl | hother
      · rfl
      · exact absurd hi (hbehind hother hi')
    · rcases List.mem_cons.1 hother with rfl | hother
      · exact absurd hi' (hbehind hplace hi)
      · exact ih hplace hother

theorem HasBit.lt_frameBits (h : l.HasBit reserved i) : i < l.frameBits := by
  obtain ⟨place, hplace, -, hcovers⟩ := h
  have hbounds := bounds_of_mem_offsetsFrom hplace
  unfold Covers at hcovers
  unfold frameBits
  omega

theorem hasBit_false_iff (l : Layout) (i : Nat) :
    l.HasBit false i ↔ i < l.frameBits ∧ ¬ l.HasBit true i := by
  constructor
  · intro h
    refine ⟨h.lt_frameBits, fun hreserved => ?_⟩
    obtain ⟨place, hplace, hfalse, hcovers⟩ := h
    obtain ⟨other, hother, htrue, hcovers'⟩ := hreserved
    rw [covers_unique hplace hother hcovers hcovers', htrue] at hfalse
    cases hfalse
  · rintro ⟨hlt, hreported⟩
    have hend : i < 0 + totalWidth l.fields := by
      rw [Nat.zero_add]
      exact hlt
    obtain ⟨place, hplace, hcovers⟩ := exists_covers (Nat.zero_le i) hend
    cases hreserved : place.1.reserved with
    | false => exact ⟨place, hplace, hreserved, hcovers⟩
    | true => exact absurd ⟨place, hplace, hreserved, hcovers⟩ hreported

/-! ## Slices -/

theorem getElem?_of_covers (bits : Bits) (hi : Covers place i) :
    bits[i]? = ((bits.drop place.2).take place.1.width)[i - place.2]? := by
  have hplace : place.2 + (i - place.2) = i := Nat.add_sub_cancel' hi.1
  have hlt : i - place.2 < place.1.width := by
    unfold Covers at hi
    omega
  rw [List.getElem?_take, if_pos hlt, List.getElem?_drop, hplace]

theorem take_drop_eq_iff (a b : Bits) (place : Field × Nat) :
    (a.drop place.2).take place.1.width = (b.drop place.2).take place.1.width ↔
      ∀ i, Covers place i → a[i]? = b[i]? := by
  constructor
  · intro h i hi
    rw [getElem?_of_covers a hi, getElem?_of_covers b hi, h]
  · intro h
    apply List.ext_getElem?
    intro j
    rw [List.getElem?_take, List.getElem?_take, List.getElem?_drop, List.getElem?_drop]
    split
    · exact h _ ⟨by omega, by omega⟩
    · rfl

end Layout

end Downlink
