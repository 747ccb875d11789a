import Downlink.Layout.Pack
import Downlink.Proofs.FieldBits

/-!
# What a payload is made of

A payload is packed from engineering values or from a record; either gives each reported field one
raw integer (`Cargo.raw?`). If packing succeeds, every field got an integer that it holds, and the
payload is the fields' low bits one behind another, reserved fields as zeros
(`exists_raw_of_pack`), filled up to whole bytes (`length_of_pack`).
-/

namespace Downlink

theorem Field.guard_eq_ok_iff (f : Field) (n raw : Int) (refusal : FieldError) :
    (if f.holds n then Except.ok n else .error refusal) = .ok raw ↔
      n = raw ∧ f.holds raw = true := by
  by_cases h : f.holds n = true
  · simp only [h, if_true, Except.ok.injEq]
    exact ⟨fun he => ⟨he, he ▸ h⟩, fun he => he.1⟩
  · simp only [h, if_false, reduceCtorEq, false_iff, not_and]
    intro he
    rw [← he]
    exact h

/-- What a payload is packed from. -/
inductive Cargo
  | engineering (values : List (String × Binary64))
  | decoded (record : Record)

namespace Cargo

/-- The raw integer that is to be written for a field: the whole number nearest to the scaled
value, or the record's own. -/
def raw? : Cargo → Field → Option Int
  | .engineering values, f =>
    (Layout.lastValue? values f.name).bind fun value =>
      (value.mul (.ofNat f.scale.toNat)).toIntRounded?
  | .decoded record, f => (record.get? f.name).map Value.raw

/-- The raw integer of a field, or a refusal. -/
def rawOf : Cargo → Field → Except FieldError Int
  | .engineering values, f =>
    match Layout.lastValue? values f.name with
    | some value => f.quantize value
    | none => .error (.missingValue f.name)
  | .decoded record, f =>
    match record.get? f.name with
    | some value => f.checkRaw value.raw
    | none => .error (.missingValue f.name)

theorem rawOf_eq_ok_iff (c : Cargo) (f : Field) (raw : Int) :
    c.rawOf f = .ok raw ↔ c.raw? f = some raw ∧ f.holds raw = true := by
  cases c with
  | engineering values =>
    simp only [rawOf, raw?]
    cases Layout.lastValue? values f.name with
    | none => simp
    | some value =>
      simp only [Field.quantize, Option.bind_some]
      cases (value.mul (.ofNat f.scale.toNat)).toIntRounded? with
      | none => simp
      | some n => rw [Field.guard_eq_ok_iff, Option.some.injEq]
  | decoded record =>
    simp only [rawOf, raw?]
    cases record.get? f.name with
    | none => simp
    | some value =>
      simp only [Field.checkRaw, Option.map_some]
      rw [Field.guard_eq_ok_iff, Option.some.injEq]

end Cargo

namespace Layout

/-! ## Writing the fields -/

/-- The bits of one field: those of its raw integer, or zeros. -/
def fieldBits (raw : Field → Int) (f : Field) : Bits :=
  Bits.ofInt f.width (if f.reserved then 0 else raw f)

@[simp] theorem length_fieldBits (raw : Field → Int) (f : Field) :
    (fieldBits raw f).length = f.width :=
  Bits.length_ofInt _ _

/-- The bits of a layout's fields in wire order. -/
def bitsOf (raw : Field → Int) (fields : List Field) : Bits :=
  fields.flatMap (fieldBits raw)

@[simp] theorem length_bitsOf (raw : Field → Int) (fields : List Field) :
    (bitsOf raw fields).length = totalWidth fields := by
  induction fields with
  | nil => rfl
  | cons f rest ih =>
    simp only [bitsOf, List.flatMap_cons, List.length_append, length_fieldBits] at ih ⊢
    rw [ih]
    rfl

theorem writeFields_cons (rawOf : Field → Except FieldError Int) (f : Field) (rest : List Field)
    (w : BitWriter) :
    writeFields rawOf (f :: rest) w =
      if f.reserved then writeFields rawOf rest (w.put 0 f.width)
      else (rawOf f).bind fun raw => writeFields rawOf rest (w.put raw f.width) := rfl

theorem writeFields_eq_ok {rawOf : Field → Except FieldError Int} {raw : Field → Int}
    {fields : List Field} (h : ∀ f ∈ fields, f.reserved = false → rawOf f = .ok (raw f))
    (w : BitWriter) : writeFields rawOf fields w = .ok ⟨w.bits ++ bitsOf raw fields⟩ := by
  induction fields generalizing w with
  | nil => simp [writeFields, bitsOf]
  | cons f rest ih =>
    obtain ⟨hf, hrest⟩ := List.forall_mem_cons.1 h
    rw [writeFields_cons]
    cases hreserved : f.reserved with
    | true =>
      rw [if_pos rfl, ih hrest]
      simp [bitsOf, fieldBits, hreserved]
    | false =>
      rw [if_neg Bool.false_ne_true, hf hreserved, Except.bind, ih hrest]
      simp [bitsOf, fieldBits, hreserved]

theorem exists_rawOf_of_writeFields {rawOf : Field → Except FieldError Int} {fields : List Field}
    {w w' : BitWriter} (h : writeFields rawOf fields w = .ok w') :
    ∀ f ∈ fields, f.reserved = false → ∃ n, rawOf f = .ok n := by
  induction fields generalizing w with
  | nil => simp
  | cons f rest ih =>
    rw [writeFields_cons] at h
    rw [List.forall_mem_cons]
    cases hreserved : f.reserved with
    | true =>
      rw [if_pos hreserved] at h
      exact ⟨by simp, ih h⟩
    | false =>
      rw [if_neg (by simp [hreserved])] at h
      cases hf : rawOf f with
      | error e => simp [hf, Except.bind] at h
      | ok n =>
        rw [hf] at h
        exact ⟨fun _ => ⟨n, rfl⟩, ih h⟩

/-! ## Packing -/

/-- Packs a payload from values or from a record. -/
def pack (l : Layout) : Cargo → Except FieldError Bytes
  | .engineering values => l.packValues values
  | .decoded record => l.packRecord record

theorem packRaw_of_pack {l : Layout} {c : Cargo} {payload : Bytes} (h : l.pack c = .ok payload) :
    l.packRaw c.rawOf = .ok payload := by
  cases c with
  | decoded record => exact h
  | engineering values =>
    simp only [pack, packValues] at h
    split at h
    · simp at h
    · exact h

/-- **A packed payload is the bits of raw integers that the cargo has and the fields hold.** -/
theorem exists_raw_of_pack {l : Layout} {c : Cargo} {payload : Bytes}
    (h : l.pack c = .ok payload) :
    ∃ raw : Field → Int, (∀ f ∈ l.reported, c.raw? f = some (raw f) ∧ f.holds (raw f) = true) ∧
      payload = (bitsOf raw l.fields).toBytes := by
  have hpack := packRaw_of_pack h
  rw [packRaw] at hpack
  cases hw : writeFields c.rawOf l.fields .empty with
  | error e => simp [hw, bind, Except.bind] at hpack
  | ok w =>
    -- the integers that were written are those that the cargo has
    have hraw : ∀ f ∈ l.fields, f.reserved = false → c.rawOf f = .ok ((c.raw? f).getD 0) := by
      intro f hf hreserved
      obtain ⟨n, hn⟩ := exists_rawOf_of_writeFields hw f hf hreserved
      rw [hn, ((c.rawOf_eq_ok_iff f n).1 hn).1, Option.getD_some]
    rw [writeFields_eq_ok hraw] at hpack
    simp only [bind, Except.bind, pure, Except.pure, Except.ok.injEq] at hpack
    refine ⟨fun f => (c.raw? f).getD 0, fun f hf => ?_, hpack.symm⟩
    rw [reported, List.mem_filter] at hf
    exact (c.rawOf_eq_ok_iff f _).1 (hraw f hf.1 (by simpa using hf.2))

theorem length_of_pack {l : Layout} {c : Cargo} {payload : Bytes} (h : l.pack c = .ok payload) :
    payload.length = l.frameBytes := by
  obtain ⟨raw, -, rfl⟩ := exists_raw_of_pack h
  rw [Bits.length_toBytes, length_bitsOf]
  rfl

end Layout

end Downlink
