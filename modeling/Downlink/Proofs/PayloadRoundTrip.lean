import Downlink.Proofs.PayloadReading
import Downlink.Proofs.PayloadWriting

/-!
# Reading what was packed

In a packed payload the bits of every field stand at its offset (`take_drop_bitsOf`), so the
record read from it has, in wire order, the integers that were written (`carries_of_pack`).
-/

namespace Downlink

/-- A record that gives back a cargo: the fields that a layout reports and no others, each with the
cargo's raw integer, read to the end of the layout. -/
structure Record.Carries (r : Record) (l : Layout) (c : Cargo) : Prop where
  names : r.entries.map Prod.fst = l.reported.map Field.name
  raw : ∀ f ∈ l.reported, (r.get? f.name).map Value.raw = c.raw? f
  consumedBits : r.consumedBits = l.frameBits

namespace Layout

/-! ## Places -/

@[simp] theorem map_fst_offsetsFrom (start : Nat) (fields : List Field) :
    (offsetsFrom start fields).map Prod.fst = fields := by
  induction fields generalizing start with
  | nil => rfl
  | cons f rest ih => rw [offsetsFrom, List.map_cons, ih]

theorem take_drop_bitsOf (raw : Field → Int) {fields : List Field} {start : Nat} {f : Field}
    {offset : Nat} (hmem : (f, offset) ∈ offsetsFrom start fields) (before : Bits)
    (hstart : before.length = start) (after : Bits) :
    ((before ++ bitsOf raw fields ++ after).drop offset).take f.width = fieldBits raw f := by
  induction fields generalizing before start with
  | nil => simp [offsetsFrom] at hmem
  | cons g rest ih =>
    have hbits : before ++ bitsOf raw (g :: rest) ++ after =
        (before ++ fieldBits raw g) ++ bitsOf raw rest ++ after := by
      simp [bitsOf]
    rw [offsetsFrom, List.mem_cons] at hmem
    rcases hmem with hhead | htail
    · obtain ⟨rfl, rfl⟩ := Prod.mk.inj hhead
      rw [hbits, List.append_assoc, List.append_assoc, List.drop_left' hstart,
        List.take_left' (length_fieldBits raw f)]
    · rw [hbits]
      exact ih htail _ (by simp [hstart])

/-! ## Entries -/

theorem entriesAt_bitsOf {fields : List Field} {raw : Field → Int}
    (hvalid : ∀ f ∈ fields, f.Valid)
    (hholds : ∀ f ∈ fields, f.reserved = false → f.holds (raw f) = true) (after : Bits) :
    entriesAt (bitsOf raw fields ++ after) (offsetsFrom 0 fields) =
      (fields.filter (!·.reserved)).map fun f => (f.name, .ofRaw f (raw f)) := by
  have hentry : ∀ place ∈ (offsetsFrom 0 fields).filter (!·.1.reserved),
      (place.1.name, Value.ofRaw place.1 (place.1.rawOfBits
        (((bitsOf raw fields ++ after).drop place.2).take place.1.width))) =
      (place.1.name, Value.ofRaw place.1 (raw place.1)) := by
    rintro ⟨f, offset⟩ hplace
    obtain ⟨hmem, hreserved⟩ := List.mem_filter.1 hplace
    have hf : f ∈ fields := by
      rw [← map_fst_offsetsFrom 0 fields]
      exact List.mem_map_of_mem hmem
    have hbits := take_drop_bitsOf raw hmem [] rfl after
    rw [List.nil_append] at hbits
    have hreserved : f.reserved = false := by simpa using hreserved
    rw [hbits, fieldBits, hreserved, if_neg Bool.false_ne_true,
      Field.rawOfBits_ofInt (hvalid f hf) (hholds f hf hreserved)]
  calc entriesAt (bitsOf raw fields ++ after) (offsetsFrom 0 fields)
      = ((offsetsFrom 0 fields).filter (!·.1.reserved)).map
          fun place => (place.1.name, .ofRaw place.1 (raw place.1)) := List.map_congr_left hentry
    _ = (((offsetsFrom 0 fields).map Prod.fst).filter (!·.reserved)).map
          fun f => (f.name, .ofRaw f (raw f)) := by
        rw [List.filter_map, List.map_map]
        rfl
    _ = (fields.filter (!·.reserved)).map fun f => (f.name, .ofRaw f (raw f)) := by
        rw [map_fst_offsetsFrom]

theorem reported_names_nodup (l : Layout) : (l.reported.map Field.name).Nodup :=
  l.names_nodup.sublist (List.filter_sublist.map Field.name)

theorem lookup_map_of_mem {α : Type} {xs : List α} {name : α → String}
    (hnodup : (xs.map name).Nodup) (value : α → Value) {x : α} (hx : x ∈ xs) :
    (xs.map fun y => (name y, value y)).lookup (name x) = some (value x) := by
  induction xs with
  | nil => simp at hx
  | cons y rest ih =>
    rw [List.map_cons, List.nodup_cons] at hnodup
    rw [List.map_cons, List.lookup_cons]
    rcases List.mem_cons.1 hx with rfl | hx
    · simp
    · have hne : name x ≠ name y := by
        intro he
        exact hnodup.1 (he ▸ List.mem_map_of_mem hx)
      rw [beq_eq_false_iff_ne.2 hne]
      exact ih hnodup.2 hx

/-! ## Records -/

/-- **The record read from a packed payload gives back what was packed.** -/
theorem carries_of_pack {l : Layout} {c : Cargo} {payload : Bytes} (h : l.pack c = .ok payload) :
    (l.recordOf payload).Carries l c := by
  obtain ⟨raw, hraw, rfl⟩ := exists_raw_of_pack h
  have hholds : ∀ f ∈ l.fields, f.reserved = false → f.holds (raw f) = true := by
    intro f hf hreserved
    exact (hraw f (List.mem_filter.2 ⟨hf, by simp [hreserved]⟩)).2
  have hentries : (l.recordOf (bitsOf raw l.fields).toBytes).entries =
      l.reported.map fun f => (f.name, .ofRaw f (raw f)) := by
    rw [recordOf, Bits.ofBytes_toBytes]
    exact entriesAt_bitsOf l.fields_valid hholds _
  refine ⟨?_, fun f hf => ?_, rfl⟩
  · rw [hentries, List.map_map]
    rfl
  · obtain ⟨hcargo, hfits⟩ := hraw f hf
    have hvalid : f.Valid := l.fields_valid f (List.mem_filter.1 hf).1
    rw [Record.get?, hentries, lookup_map_of_mem l.reported_names_nodup _ hf, hcargo,
      Option.map_some, Value.raw_ofRaw hvalid hfits]

end Layout

end Downlink
