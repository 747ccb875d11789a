import Downlink.Proofs.BitPlaces
import Downlink.Proofs.Repacking

/-!
# A record by places

What a record says of a field is told by the bits at the field's offset and by nothing else: they
spell its raw integer, and the field's scale and sign say how the value is kept (`IsValueAt`). All
payloads that are long enough are read so, whatever the layout (`unpack_reads`).

A record has its values in slots, one for each field that is not reserved, in wire order. Looking up
a name finds the value in the slot of that name (`get?_eq_valueOf?`), and going through the slots
lists the fields in order (`entries_eq_listed`).
-/

namespace Downlink

/-! ## Kinds of values -/

namespace Value

/-- A value is kept as a field's values are: scaled just when the scale is not one, and otherwise
with a sign or without. -/
def Suits (f : Field) : Value → Prop
  | .scaled _ divisor _ => f.scale ≠ 1 ∧ divisor = f.scale.toNat
  | .signed _ => f.scale = 1 ∧ f.signed = true
  | .unsigned _ => f.scale = 1 ∧ f.signed = false

theorem suits_ofRaw {f : Field} (hf : f.Valid) (raw : Int) : (ofRaw f raw).Suits f := by
  have hpos : 0 < f.scale.toNat := by
    have hscale : f.scale.toNat ≠ 0 := fun hzero => hf.scale_ne (UInt32.toNat_inj.1 hzero)
    omega
  unfold ofRaw
  by_cases hscale : f.scale = 1
  · rw [dif_neg (fun h => h.2 hscale)]
    cases hsigned : f.signed with
    | true => exact ⟨hscale, hsigned⟩
    | false => exact ⟨hscale, hsigned⟩
  · rw [dif_pos ⟨hpos, hscale⟩]
    exact ⟨hscale, rfl⟩

end Value

namespace Layout

/-! ## Slots -/

/-- The value in the slot of a name. -/
def valueOf? (l : Layout) (values : List Value) (name : String) : Option Value :=
  (l.slotOf? name).bind fun slot => values[slot]?

/-- The values, each with the name of its slot's field. -/
def listed (l : Layout) (values : List Value) : List (String × Value) :=
  values.zipIdx.filterMap fun (value, slot) => (l.slotField? slot).map fun f => (f.name, value)

variable {l : Layout} {record : Record} {name : String}

theorem lookup_eq_bind_findIdx? {entries : List (String × Value)} {fields : List Field}
    (hnames : entries.map Prod.fst = fields.map Field.name) (name : String) :
    entries.lookup name =
      (fields.findIdx? (·.name == name)).bind fun slot => (entries.map Prod.snd)[slot]? := by
  induction entries generalizing fields with
  | nil =>
    obtain rfl := List.map_eq_nil_iff.1 hnames.symm
    rfl
  | cons entry rest ih =>
    obtain ⟨f, others, rfl, hname, hothers⟩ := List.map_eq_cons_iff.1 hnames.symm
    rw [List.lookup_cons, List.findIdx?_cons, hname, BEq.comm]
    cases entry.1 == name with
    | true => rfl
    | false =>
      rw [ih hothers.symm]
      cases others.findIdx? (·.name == name) <;> rfl

theorem get?_eq_valueOf? (hnames : record.entries.map Prod.fst = l.reported.map Field.name)
    (name : String) : record.get? name = l.valueOf? (record.entries.map Prod.snd) name :=
  lookup_eq_bind_findIdx? hnames name

theorem filterMap_zipIdx_eq (front : List Field) {fields : List Field}
    {entries : List (String × Value)} (hnames : entries.map Prod.fst = fields.map Field.name) :
    ((entries.map Prod.snd).zipIdx front.length).filterMap
      (fun (value, slot) => ((front ++ fields)[slot]?).map fun f => (f.name, value)) = entries := by
  induction entries generalizing front fields with
  | nil => rfl
  | cons entry rest ih =>
    obtain ⟨f, others, rfl, hname, hothers⟩ := List.map_eq_cons_iff.1 hnames.symm
    have hrest := ih (front ++ [f]) hothers.symm
    rw [List.length_append, List.length_singleton, List.append_assoc, List.singleton_append] at hrest
    have hslot : (front ++ f :: others)[front.length]? = some f := by
      rw [List.getElem?_append_right (Nat.le_refl _), Nat.sub_self]
      rfl
    rw [List.map_cons, List.zipIdx_cons, List.filterMap_cons_some, hrest]
    show ((front ++ f :: others)[front.length]?).map (fun f => (f.name, entry.2)) = some entry
    rw [hslot, Option.map_some, hname]

theorem entries_eq_listed (hnames : record.entries.map Prod.fst = l.reported.map Field.name) :
    record.entries = l.listed (record.entries.map Prod.snd) :=
  (filterMap_zipIdx_eq [] hnames).symm

theorem get?_eq_none_iff (hnames : record.entries.map Prod.fst = l.reported.map Field.name)
    (name : String) : record.get? name = none ↔ ∀ f ∈ l.reported, f.name ≠ name := by
  have hmem : name ∈ record.entries.map Prod.fst ↔ ∃ f ∈ l.reported, f.name = name := by
    rw [hnames, List.mem_map]
  rw [Record.get?, List.lookup_eq_none_iff]
  constructor
  · intro hother f hf hname
    obtain ⟨entry, hentry, hfst⟩ := List.mem_map.1 (hmem.2 ⟨f, hf, hname⟩)
    exact bne_iff_ne.1 (hother entry hentry) hfst.symm
  · intro hother entry hentry
    rw [bne_iff_ne]
    rintro rfl
    obtain ⟨f, hf, hname⟩ := hmem.1 (List.mem_map_of_mem hentry)
    exact hother f hf hname

/-! ## Places -/

/-- A value is the one that a payload has for the field at a place. -/
structure IsValueAt (payload : Bytes) (place : Field × Nat) (value : Value) : Prop where
  /-- Its raw integer is spelled by the bits there. -/
  spells : Spells place.1.signed place.1.width (payload.natAt place.2 place.1.width) value.raw
  suits : value.Suits place.1
  inRange : place.1.rawMin ≤ value.raw ∧ value.raw ≤ place.1.rawMax

/-- A record says what the bits of a payload say, field by field. -/
structure Reads (l : Layout) (payload : Bytes) (record : Record) : Prop where
  /-- Each field that is not reserved has the value at its offset. -/
  value : ∀ place ∈ l.offsets, place.1.reserved = false →
    ∃ value, record.get? place.1.name = some value ∧ IsValueAt payload place value
  /-- The entries are these fields in wire order, each with its value. -/
  entries : record.entries.map (fun (name, value) => (name, some value)) =
    l.reported.map fun f => (f.name, record.get? f.name)
  /-- Reserved and unknown names have no value, and no others. -/
  get?_eq_none : ∀ name,
    record.get? name = none ↔ ∀ f ∈ l.fields, f.name = name → f.reserved = true
  /-- Looking up a name and going through the entries are the same by slots. -/
  slots : (∀ name, record.get? name = l.valueOf? (record.entries.map Prod.snd) name) ∧
    record.entries = l.listed (record.entries.map Prod.snd)
  consumedBits : record.consumedBits = l.frameBits
  unreadBits : record.unreadBits = 8 * payload.length - l.frameBits

variable {payload : Bytes} {place : Field × Nat}

theorem forall_reported_ne_iff (l : Layout) (name : String) :
    (∀ f ∈ l.reported, f.name ≠ name) ↔ ∀ f ∈ l.fields, f.name = name → f.reserved = true := by
  constructor
  · intro hother f hf hname
    cases hreserved : f.reserved with
    | true => rfl
    | false => exact absurd hname (hother f (List.mem_filter.2 ⟨hf, by simp [hreserved]⟩))
  · intro hreserved f hf hname
    obtain ⟨hmember, hreported⟩ := List.mem_filter.1 hf
    rw [hreserved f hmember hname] at hreported
    cases hreported

theorem reported_eq_map_fst (l : Layout) :
    l.reported = (l.offsets.filter (!·.1.reserved)).map Prod.fst := by
  rw [reported, ← map_fst_offsetsFrom 0 l.fields, List.filter_map]
  rfl

theorem map_fst_entries_recordOf (l : Layout) (payload : Bytes) :
    (l.recordOf payload).entries.map Prod.fst = l.reported.map Field.name := by
  rw [entries_recordOf, reported_eq_map_fst, List.map_map, List.map_map]
  rfl

theorem isValueAt_recordOf (h : l.frameBits ≤ 8 * payload.length) (hplace : place ∈ l.offsets) :
    IsValueAt payload place (.ofRaw place.1 (place.1.rawOfBits (slice payload place))) := by
  have hvalid := valid_of_mem_offsets hplace
  have hbounds := bounds_of_mem_offsetsFrom hplace
  have hinside : place.2 + place.1.width ≤ 8 * payload.length := by
    unfold frameBits at h
    omega
  have hholds := Field.holds_rawOfBits hvalid (length_slice h hplace)
  rw [Field.holds, Bool.and_eq_true, decide_eq_true_eq, decide_eq_true_eq] at hholds
  refine ⟨?_, Value.suits_ofRaw hvalid _, ?_⟩
  · rw [raw_ofRaw_slice h hplace]
    exact (Field.spells_iff hvalid hinside _).2 rfl
  · rw [raw_ofRaw_slice h hplace]
    exact hholds

theorem map_entries_recordOf (l : Layout) (payload : Bytes) :
    (l.recordOf payload).entries.map (fun (name, value) => (name, some value)) =
      l.reported.map fun f => (f.name, (l.recordOf payload).get? f.name) := by
  rw [reported_eq_map_fst, entries_recordOf, List.map_map, List.map_map]
  apply List.map_congr_left
  intro place hplace
  obtain ⟨hmem, hreserved⟩ := List.mem_filter.1 hplace
  have hvalue := get?_recordOf payload hmem (by simpa using hreserved)
  simp only [Function.comp_apply, hvalue]

/-- **Unpacking reads every field at its place.** A payload that is long enough gives a record,
whatever its bits are, and the record says what they say. Reading byte by byte meets all of its
conditions, and gives the same record. -/
theorem unpack_reads (l : Layout) (payload : Bytes) (h : l.frameBits ≤ 8 * payload.length) :
    ∃ record, l.unpack payload = .ok record ∧
      (Checked.unpack l payload).run = some (.ok record) ∧ l.Reads payload record := by
  have hunpack := unpack_of_le h
  have hnames := l.map_fst_entries_recordOf payload
  refine ⟨l.recordOf payload, hunpack, ?_, ?_, ?_, ?_, ?_, rfl, rfl⟩
  · rw [Checked.unpack_eq, hunpack]
  · intro place hplace hreserved
    exact ⟨_, get?_recordOf payload hplace hreserved, isValueAt_recordOf h hplace⟩
  · exact map_entries_recordOf l payload
  · intro name
    rw [get?_eq_none_iff hnames, forall_reported_ne_iff]
  · exact ⟨get?_eq_valueOf? hnames, entries_eq_listed hnames⟩

/-- A payload of 69 bits with three behind them is read, the gap left out. -/
theorem unpack_reads_unaligned :
    unaligned.frameBits ≤ 8 * [0xbf, 0xff, 0xff, 0xff, 0xff, 0xff, 0xff, 0xff, 0x9f].length ∧
    (unaligned.unpack [0xbf, 0xff, 0xff, 0xff, 0xff, 0xff, 0xff, 0xff, 0x9f]).map
        Record.entries =
      .ok [("sign", .signed (-1)), ("word", .signed (-2)), ("level", .scaled 3 10 (by decide))] ∧
    ∃ record,
      unaligned.unpack [0xbf, 0xff, 0xff, 0xff, 0xff, 0xff, 0xff, 0xff, 0x9f] = .ok record ∧
      (Checked.unpack unaligned [0xbf, 0xff, 0xff, 0xff, 0xff, 0xff, 0xff, 0xff, 0x9f]).run =
        some (.ok record) ∧
      unaligned.Reads [0xbf, 0xff, 0xff, 0xff, 0xff, 0xff, 0xff, 0xff, 0x9f] record :=
  ⟨by decide, rfl, unpack_reads unaligned _ (by decide)⟩

end Layout

end Downlink
