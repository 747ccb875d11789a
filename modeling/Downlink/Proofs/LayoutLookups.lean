import Mathlib.Logic.ExistsUnique
import Downlink.Proofs.EngineeringValues
import Downlink.Proofs.LayoutChecking

/-!
# What is looked up in a layout

The fields of a layout are looked up by name, by the slot that their value has in a record, and by
the bits that they take up. Slots go along the fields and leave out the reserved ones, so a name and
its slot find each other (`slotOf?_eq_some_iff`); a name finds one field, reserved or not
(`filter_name_eq`); and the fields cover the frame without a gap (`tiles_of_layout`).

The lookups can be tables that are filled in while the fields are looked at, one entry after
another. Behind each field they tell of just the fields so far (`Scan.Of.enter`), so in the end they
tell what the layout tells (`Layout.lookups_cohere`).
-/

namespace Downlink

namespace Layout

variable {l : Layout} {fields : List Field} {place : Nat}

/-! ## Slots -/

/-- The places of the fields that are not reserved, in order. -/
def reportedPlaces (fields : List Field) : List Nat :=
  (fields.zipIdx.filter (!·.1.reserved)).map Prod.snd

theorem reportedPlaces_concat (before : List Field) (f : Field) :
    reportedPlaces (before ++ [f]) =
      reportedPlaces before ++ if f.reserved then [] else [before.length] := by
  rw [reportedPlaces, List.zipIdx_append, List.filter_append, List.map_append, Nat.zero_add]
  cases hreserved : f.reserved <;> simp [reportedPlaces, hreserved]

theorem reportedPlaces_sorted (fields : List Field) :
    (reportedPlaces fields).Pairwise (· < ·) := by
  have hsublist : (reportedPlaces fields).Sublist (fields.zipIdx.map Prod.snd) :=
    List.filter_sublist.map Prod.snd
  rw [List.zipIdx_map_snd] at hsublist
  exact (List.pairwise_lt_range' 1).sublist hsublist

theorem mem_reportedPlaces_iff :
    place ∈ reportedPlaces fields ↔ ∃ f, fields[place]? = some f ∧ f.reserved = false := by
  simp only [reportedPlaces, List.mem_map, List.mem_filter, Prod.exists,
    List.mk_mem_zipIdx_iff_getElem?]
  constructor
  · rintro ⟨f, _, ⟨hf, hreserved⟩, rfl⟩
    exact ⟨f, hf, by simpa using hreserved⟩
  · rintro ⟨f, hf, hreserved⟩
    exact ⟨f, place, ⟨hf, by simp [hreserved]⟩, rfl⟩

theorem filter_eq_map_zipIdx (fields : List Field) :
    fields.filter (!·.reserved) = (fields.zipIdx.filter (!·.1.reserved)).map Prod.fst := by
  calc fields.filter (!·.reserved)
      = (fields.zipIdx.map Prod.fst).filter (!·.reserved) := by rw [List.zipIdx_map_fst]
    _ = (fields.zipIdx.filter (!·.1.reserved)).map Prod.fst := List.filter_map

theorem length_reportedPlaces (fields : List Field) :
    (reportedPlaces fields).length = (fields.filter (!·.reserved)).length := by
  rw [filter_eq_map_zipIdx, reportedPlaces, List.length_map, List.length_map]

theorem slotField?_eq (l : Layout) (slot : Nat) :
    l.slotField? slot = (reportedPlaces l.fields)[slot]?.bind fun place => l.fields[place]? := by
  rw [slotField?, reported, filter_eq_map_zipIdx, reportedPlaces, List.getElem?_map,
    List.getElem?_map]
  cases hentry : (l.fields.zipIdx.filter (!·.1.reserved))[slot]? with
  | none => rfl
  | some entry =>
    have hmem := (List.mem_filter.1 (List.mem_of_getElem? hentry)).1
    rw [Option.map_some, Option.map_some, Option.bind_some,
      List.mk_mem_zipIdx_iff_getElem?.1 hmem]

theorem slotOf?_eq_some_iff (l : Layout) (name : String) (slot : Nat) :
    l.slotOf? name = some slot ↔ ∃ f, l.slotField? slot = some f ∧ f.name = name := by
  rw [slotOf?, slotField?, List.findIdx?_eq_some_iff_getElem]
  constructor
  · rintro ⟨hlt, hname, -⟩
    exact ⟨_, List.getElem?_eq_getElem hlt, by simpa using hname⟩
  · rintro ⟨f, hf, rfl⟩
    obtain ⟨hlt, rfl⟩ := List.getElem?_eq_some_iff.1 hf
    refine ⟨hlt, by simp, fun other hother => ?_⟩
    -- No slot in front has the same name.
    have hdistinct := List.pairwise_iff_getElem.1 l.reported_names_nodup other slot
      (by rw [List.length_map]; omega) (by rwa [List.length_map]) hother
    simpa using hdistinct

theorem recordLength_eq_countP (l : Layout) :
    l.recordLength = l.fields.countP (!·.reserved) :=
  List.countP_eq_length_filter.symm

theorem isSome_slotField?_iff (l : Layout) (slot : Nat) :
    (l.slotField? slot).isSome ↔ slot < l.recordLength := by
  rw [slotField?, recordLength, isSome_getElem?]

/-! ## Names -/

theorem filter_name_eq (h : (fields.map Field.name).Nodup) (name : String) :
    fields.filter (·.name == name) = (fields.find? (·.name == name)).toList := by
  induction fields with
  | nil => rfl
  | cons f rest ih =>
    obtain ⟨hnew, hrest⟩ := List.nodup_cons.1 h
    by_cases hname : f.name = name
    · have hnone : rest.filter (·.name == name) = [] := by
        rw [List.filter_eq_nil_iff]
        intro g hg hsame
        exact hnew (hname ▸ beq_iff_eq.1 hsame ▸ List.mem_map_of_mem hg)
      rw [List.filter_cons_of_pos (by simpa using hname), hnone,
        List.find?_cons_of_pos (by simpa using hname)]
      rfl
    · rw [List.filter_cons_of_neg (by simpa using hname), ih hrest,
        List.find?_cons_of_neg (by simpa using hname)]

theorem field?_eq_some_iff (l : Layout) (name : String) (f : Field) :
    l.field? name = some f ↔ f ∈ l.fields ∧ f.name = name := by
  have hmem : f ∈ l.fields.filter (·.name == name) ↔ f ∈ l.fields ∧ f.name = name := by
    rw [List.mem_filter, beq_iff_eq]
  rw [← hmem, filter_name_eq l.names_nodup, Option.mem_toList, field?]

/-! ## Bits -/

/-- The fields stand one behind another, from the first bit of the frame to its end. -/
structure Tiles (l : Layout) : Prop where
  fields : l.offsets.map Prod.fst = l.fields
  /-- A field begins where those in front of it end. -/
  consecutive : ∀ front place behind, l.offsets = front ++ place :: behind →
    place.2 = (front.map fun other => other.1.width).sum
  total : l.frameBits = (l.offsets.map fun place => place.1.width).sum
  /-- Each bit of the frame, and no other, is one of a field, and of no second one. -/
  covers : ∀ i, i < l.frameBits ↔ ∃! place, place ∈ l.offsets ∧ Covers place i

theorem start_of_offsetsFrom {start : Nat} {front back : List (Field × Nat)} {place : Field × Nat}
    (h : offsetsFrom start fields = front ++ place :: back) :
    place.2 = start + (front.map fun other => other.1.width).sum := by
  induction fields generalizing start front with
  | nil => simp [offsetsFrom] at h
  | cons f rest ih =>
    rw [offsetsFrom] at h
    cases front with
    | nil =>
      obtain ⟨rfl, -⟩ := List.cons.inj h
      rfl
    | cons first others =>
      obtain ⟨rfl, hrest⟩ := List.cons.inj h
      rw [ih hrest, List.map_cons, List.sum_cons, Nat.add_assoc]

theorem tiles_of_layout (l : Layout) : l.Tiles where
  fields := map_fst_offsetsFrom 0 l.fields
  consecutive := by
    intro front place behind h
    rw [start_of_offsetsFrom h, Nat.zero_add]
  total := by
    have hwidths : l.offsets.map (fun place => place.1.width) =
        (l.offsets.map Prod.fst).map Field.width := List.map_map.symm
    rw [hwidths, offsets, map_fst_offsetsFrom, ← totalWidth_eq_sum, frameBits]
  covers := by
    intro i
    constructor
    · intro h
      have hend : i < 0 + totalWidth l.fields := by
        rw [Nat.zero_add]
        exact h
      obtain ⟨place, hplace, hcovers⟩ := exists_covers (Nat.zero_le i) hend
      refine ⟨place, ⟨hplace, hcovers⟩, ?_⟩
      rintro other ⟨hother, hcovers'⟩
      exact covers_unique hother hplace hcovers' hcovers
    · rintro ⟨place, ⟨hplace, hcovers⟩, -⟩
      exact HasBit.lt_frameBits ⟨place, hplace, rfl, hcovers⟩

/-! ## Layouts -/

/-- All that is looked up in a layout fits together. -/
structure Coherent (l : Layout) : Prop where
  /-- The slots go along the fields that are not reserved, from one place to a later one. -/
  places : ∃ places : List Nat, places.Pairwise (· < ·) ∧
    (∀ place, place ∈ places ↔ ∃ f, l.fields[place]? = some f ∧ f.reserved = false) ∧
    ∀ slot, l.slotField? slot = places[slot]?.bind fun place => l.fields[place]?
  slotOf?_iff : ∀ name slot,
    l.slotOf? name = some slot ↔ ∃ f, l.slotField? slot = some f ∧ f.name = name
  /-- There are as many slots as fields that are not reserved. -/
  isSome_slotField? : ∀ slot, (l.slotField? slot).isSome ↔ slot < l.recordLength
  recordLength : l.recordLength = l.fields.countP (!·.reserved)
  reports : ∀ name,
    l.reports name = true ↔ ∃ f ∈ l.fields, f.name = name ∧ f.reserved = false
  /-- A name has a slot just when it is reported. -/
  isSome_slotOf? : ∀ name, (l.slotOf? name).isSome = l.reports name
  field? : ∀ name f, l.field? name = some f ↔ f ∈ l.fields ∧ f.name = name
  /-- No second field has the name. -/
  filter_name : ∀ name, l.fields.filter (·.name == name) = (l.field? name).toList
  tiles : l.Tiles
  /-- The frame has room in its bytes, and in no fewer. -/
  frameBytes : ∀ count, l.frameBytes ≤ count ↔ l.frameBits ≤ 8 * count
  /-- Written down and built again, it is the same layout. -/
  rebuilt : l.toDraft.build = .ok l

theorem isSome_slotOf?_eq (l : Layout) (name : String) :
    (l.slotOf? name).isSome = l.reports name := by
  rw [slotOf?, List.findIdx?_isSome, reports]

theorem frameBytes_le_iff (l : Layout) (count : Nat) :
    l.frameBytes ≤ count ↔ l.frameBits ≤ 8 * count := by
  rw [frameBytes, Bits.bytesFor]
  omega

theorem build_toDraft (l : Layout) : l.toDraft.build = .ok l :=
  ofFields_eq_ok_iff.2 ⟨rfl, ⟨l.fields_valid, l.names_nodup⟩, rfl⟩

theorem coherent_of_layout (l : Layout) : l.Coherent where
  places := ⟨reportedPlaces l.fields, reportedPlaces_sorted _, fun _ => mem_reportedPlaces_iff,
    l.slotField?_eq⟩
  slotOf?_iff := l.slotOf?_eq_some_iff
  isSome_slotField? := l.isSome_slotField?_iff
  recordLength := l.recordLength_eq_countP
  reports := l.reports_iff
  isSome_slotOf? := l.isSome_slotOf?_eq
  field? := l.field?_eq_some_iff
  filter_name := filter_name_eq l.names_nodup
  tiles := l.tiles_of_layout
  frameBytes := l.frameBytes_le_iff
  rebuilt := l.build_toDraft

end Layout

namespace Checked

open Layout (reportedPlaces)

variable {fields before rest : List Field} {f : Field} {s t : Scan}

/-! ## Tables -/

/-- What the tables tell when some fields have been entered. -/
structure Scan.Of (before : List Field) (s : Scan) : Prop where
  seen : ∀ name, (s.seen name).isSome ↔ name ∈ before.map Field.name
  slots : s.slots = reportedPlaces before
  index : ∀ name, s.index name = (before.filter (!·.reserved)).findIdx? (·.name == name)

theorem Scan.of_empty : Scan.empty.Of [] where
  seen := by simp [Scan.empty]
  slots := rfl
  index := fun _ => rfl

theorem Scan.Of.enter (h : s.Of before) (hnew : f.name ∉ before.map Field.name) :
    (s.enter before.length f).Of (before ++ [f]) where
  seen := by
    intro name
    rw [seen_enter, List.map_append, List.mem_append, List.map_singleton, List.mem_singleton]
    by_cases hname : name = f.name
    · simp [hname]
    · simp [hname, h.seen]
  slots := by
    rw [Layout.reportedPlaces_concat, ← h.slots]
    cases hreserved : f.reserved <;> simp [Scan.enter, hreserved]
  index := by
    intro name
    rw [List.filter_append, List.findIdx?_append, ← h.index name]
    cases hreserved : f.reserved with
    | true => simp [Scan.enter, hreserved]
    | false =>
      have hlength : s.slots.length = (before.filter (!·.reserved)).length := by
        rw [h.slots, Layout.length_reportedPlaces]
      by_cases hname : name = f.name
      · subst hname
        -- The name has no slot yet.
        have hnone : s.index f.name = none := by
          rw [h.index, List.findIdx?_eq_none_iff]
          intro g hg
          rw [beq_eq_false_iff_ne]
          intro hsame
          exact hnew (hsame ▸ List.mem_map_of_mem (List.mem_filter.1 hg).1)
        simp [Scan.enter, hreserved, hnone, hlength]
      · simp [Scan.enter, hreserved, hname, Ne.symm hname]

theorem Scan.Of.scan (h : s.Of before) (hscan : scan s before.length rest = .ok t) :
    t.Of (before ++ rest) := by
  induction rest generalizing before s with
  | nil =>
    obtain rfl := Except.ok.inj hscan
    rwa [List.append_nil]
  | cons f rest ih =>
    rw [Checked.scan] at hscan
    cases hfault : f.fault? with
    | some fault =>
      rw [hfault] at hscan
      cases hscan
    | none =>
      rw [hfault] at hscan
      dsimp only at hscan
      split at hscan
      · cases hscan
      · next hseen =>
        rw [h.seen] at hseen
        have hnext : Checked.scan (s.enter before.length f) (before ++ [f]).length rest =
            .ok t := by
          rwa [List.length_append, List.length_singleton]
        have hrest := ih (h.enter hseen) hnext
        rwa [List.append_assoc, List.singleton_append] at hrest

/-- The field of a slot, found at the place of the slot. -/
def Indexed.slotField? (t : Indexed) (slot : Nat) : Option Field :=
  t.slots[slot]?.bind fun place => t.fields[place]?

/-- Tables that tell what a layout tells. -/
structure Indexed.Tells (t : Indexed) (l : Layout) : Prop where
  fields : t.fields = l.fields
  frameBits : t.frameBits.toNat = l.frameBits
  /-- The slots go along the fields. -/
  sorted : t.slots.Pairwise (· < ·)
  /-- Each of them has a field that is not reserved, and each such field has one. -/
  mem_slots : ∀ place, place ∈ t.slots ↔ ∃ f, t.fields[place]? = some f ∧ f.reserved = false
  length_slots : t.slots.length = l.recordLength
  slotField? : ∀ slot, t.slotField? slot = l.slotField? slot
  slotOf? : ∀ name, t.index name = l.slotOf? name
  reports : ∀ name, (t.index name).isSome = l.reports name
  /-- Written down and built again, they are the same tables. -/
  rebuilt : build t.fields (some t.frameBits) = .ok t

theorem tells_of_ofFields {declared : UInt64} {t : Indexed} {l : Layout}
    (h : ofFields fields declared = .ok t) (hfields : l.fields = fields)
    (hlength : declared.toNat = l.frameBits) : t.Tells l := by
  have hbuilt := h
  rw [ofFields] at h
  cases hscan : scan .empty 0 fields with
  | error fault =>
    rw [hscan] at h
    cases h
  | ok s =>
    have hof : s.Of fields := Scan.of_empty.scan hscan
    rw [hscan] at h
    simp only [bind, Except.bind] at h
    split at h
    · cases h
    · obtain rfl := Except.ok.inj h
      subst hfields
      have hindex : ∀ name, s.index name = l.slotOf? name := hof.index
      exact {
        fields := rfl
        frameBits := hlength
        sorted := hof.slots ▸ Layout.reportedPlaces_sorted _
        mem_slots := fun place => hof.slots ▸ Layout.mem_reportedPlaces_iff
        length_slots := hof.slots ▸ Layout.length_reportedPlaces _
        slotField? := fun slot => by
          rw [l.slotField?_eq, Indexed.slotField?, hof.slots]
        slotOf? := hindex
        reports := fun name => by
          rw [← l.isSome_slotOf?_eq, ← hindex]
        rebuilt := hbuilt }

end Checked

namespace Layout

/-- **All lookups in a layout fit together,** and tables that are filled in along the fields tell
the same, of as many fields as there can be in memory. -/
theorem lookups_cohere {fields : List Field} {declared : Nat} {l : Layout}
    (h : ofFields fields declared = .ok l) :
    l.fields = fields ∧ l.frameBits = declared ∧ l.Coherent ∧
      (fields.length < 2 ^ 58 →
        ∃ t, Checked.ofFields fields (.ofNat declared) = .ok t ∧ t.Tells l) := by
  obtain ⟨hfields, hsound, hlength⟩ := ofFields_eq_ok_iff.1 h
  have hbits : l.frameBits = declared := by
    rw [frameBits, hfields, hlength]
  refine ⟨hfields, hbits, l.coherent_of_layout, fun hcount => ?_⟩
  have hword : (UInt64.ofNat declared).toNat = declared := by
    have hle := totalWidth_le_of_valid hsound.valid
    rw [UInt64.toNat_ofNat', Nat.mod_eq_of_lt (by omega)]
  have hagree := Checked.ofFields_eq hcount (.ofNat declared)
  rw [hword, h] at hagree
  cases hbuilt : Checked.ofFields fields (.ofNat declared) with
  | error error =>
    rw [hbuilt] at hagree
    cases hagree
  | ok t => exact ⟨t, rfl, Checked.tells_of_ofFields hbuilt hfields (hword.trans hbits.symm)⟩

/-- Reserved fields between the others and behind them. -/
def spacedFields : List Field :=
  [.unsigned "level" 3, .padding "gap" 5, (Field.twosComplement "tilt" 7).withScale 10,
    .unsigned "mode" 1, .padding "end" 2]

theorem lookups_cohere_spaced :
    ∃ l t, ofFields spacedFields 18 = .ok l ∧ spacedFields.length < 2 ^ 58 ∧
      Checked.ofFields spacedFields 18 = .ok t ∧ t.slots = [0, 2, 3] ∧ t.index "gap" = none ∧
      l.slotOf? "mode" = some 2 ∧ l.frameBytes = 3 ∧ l.Coherent ∧ t.Tells l := by
  have hbuilt : ∃ l, ofFields spacedFields 18 = .ok l := ⟨_, rfl⟩
  obtain ⟨l, hl⟩ := hbuilt
  obtain ⟨hfields, hbits, hcoherent, htables⟩ := lookups_cohere hl
  have hcount : spacedFields.length < 2 ^ 58 := by decide
  obtain ⟨t, ht, htells⟩ := htables hcount
  have hslots : t.slots = [0, 2, 3] := by
    obtain rfl := Except.ok.inj ht
    rfl
  have hmode : l.slotOf? "mode" = some 2 := by
    obtain rfl := Except.ok.inj hl
    rfl
  have hgap : t.index "gap" = none := by
    obtain rfl := Except.ok.inj ht
    rfl
  have hbytes : l.frameBytes = 3 := by
    rw [frameBytes, hbits]
    rfl
  exact ⟨l, t, hl, hcount, ht, hslots, hgap, hmode, hbytes, hcoherent, htells⟩

end Layout

end Downlink
