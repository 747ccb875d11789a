import Downlink.Proofs.BitWriting
import Downlink.Proofs.EngineeringValues

/-!
# Packing values with machine integers

Values can be packed through a table and with machine integers. They are entered into the table one
after another, each in place of the one that its name had. A scaled value becomes an integer of 128
bits, one of the limits if it lies beyond them; if this integer lies in the range of the field, it is
cut to a word, and low bits of the word are written in place.

Neither cast changes what is packed. The range of a field lies far within the limits, so a limit lies
outside of it just as the value does (`saturate_range_iff`), and no more bits are written than a word
has. Only what is not a number would become an integer that fields hold, zero; this is refused before.
So the same is packed, and every condition is met on the way (`Checked.run_packValues`).

This settles what packing makes of any list of values (`Layout.packValues_encodes`).
-/

namespace Downlink

theorem Field.range_bounds {f : Field} (hf : f.Valid) :
    -2 ^ (63 : Nat) ≤ f.rawMin ∧ f.rawMax < 2 ^ (64 : Nat) := by
  have hwidth : f.width ≤ 64 := hf.width_le
  have hword := Bits.two_pow_le_two_pow hwidth
  have hhalf := Bits.two_pow_le_two_pow (show f.width - 1 ≤ 63 by omega)
  unfold rawMin rawMax
  cases f.signed with
  | true =>
    rw [if_pos rfl, if_pos rfl]
    omega
  | false =>
    rw [if_neg Bool.false_ne_true, if_neg Bool.false_ne_true]
    omega

namespace Checked

variable {l : Layout} {f : Field} {fields : List Field}

/-! ## Packing in place -/

/-- The values that names have. -/
abbrev Table := String → Option Binary64

/-- A name has the value from now on. -/
def Table.insert (table : Table) (name : String) (value : Binary64) : Table :=
  fun other => if other = name then some value else table other

/-- The least integer of 128 bits. -/
def least128 : Int := -2 ^ (127 : Nat)

/-- The greatest integer of 128 bits. -/
def greatest128 : Int := 2 ^ (127 : Nat) - 1

/-- The integer of 128 bits that is nearest to an integer. -/
def saturate (n : Int) : Int :=
  max least128 (min n greatest128)

/-- The integer of 128 bits that is nearest to a number; zero if it is not a number. -/
def toInt128 : Binary64 → Int
  | .nan => 0
  | .infinity negative => if negative then least128 else greatest128
  | .finite negative significand exponent =>
    saturate ((Binary64.finite negative significand exponent).toIntRounded?.getD 0)

/-- What is packed, or why it is refused; none if a condition was not met. -/
abbrev Packing := ExceptT FieldError Option

/-- Enters values into a table, up to a name that the layout does not report. -/
def enter (l : Layout) (table : Table) : List (String × Binary64) → Packing Table
  | [] => return table
  | (name, value) :: rest =>
    if l.reports name then enter l (table.insert name value) rest else throw (.unknownField name)

/-- The word that is written for a value. -/
def wordOf (f : Field) (value : Binary64) : Packing UInt64 :=
  let scaled := value.mul (.ofNat f.scale.toNat)
  if scaled.isFinite then
    let raw := toInt128 scaled
    if raw < f.rawMin ∨ f.rawMax < raw then throw (f.outOfRange value) else return .ofInt raw
  else throw (f.outOfRange value)

/-- Writes the low bits of a word; none if it does not have so many. -/
def pushWord (word : UInt64) (width : Nat) (w : ByteWriter) : Option ByteWriter :=
  if width ≤ maxFieldWidth then writeWord word width w else none

def writeFields (table : Table) : List Field → ByteWriter → Packing ByteWriter
  | [], w => return w
  | f :: rest, w => do
    if f.reserved then
      let w ← pushWord 0 f.width w
      writeFields table rest w
    else
      match table f.name with
      | none => throw (.missingValue f.name)
      | some value =>
        let word ← wordOf f value
        let w ← pushWord word f.width w
        writeFields table rest w

def packValues (l : Layout) (values : List (String × Binary64)) : Packing Bytes := do
  let table ← enter l (fun _ => none) values
  let w ← writeFields table l.fields .empty
  return w.bytes

/-! ## The table -/

theorem or_insert (table : Table) (name : String) (value : Binary64) (other : String) :
    (if other = name then some value else none).or (table other) =
      table.insert name value other := by
  unfold Table.insert
  split <;> rfl

theorem run_enter (l : Layout) (table : Table) (values : List (String × Binary64)) :
    (enter l table values).run = some
      (match l.unknownName? values with
      | some name => .error (.unknownField name)
      | none => .ok fun name => (Layout.lastValue? values name).or (table name)) := by
  induction values generalizing table with
  | nil => rfl
  | cons pair rest ih =>
    obtain ⟨name, value⟩ := pair
    rw [enter, Layout.unknownName?_cons]
    cases hreports : l.reports name with
    | false =>
      rw [if_neg Bool.false_ne_true, if_neg Bool.false_ne_true]
      rfl
    | true =>
      rw [if_pos rfl, if_pos rfl, ih]
      simp only [Layout.lastValue?_cons, Option.or_assoc, or_insert]

/-! ## Casts -/

theorem saturate_range_iff (hf : f.Valid) (n : Int) :
    saturate n < f.rawMin ∨ f.rawMax < saturate n ↔ n < f.rawMin ∨ f.rawMax < n := by
  have := Field.range_bounds hf
  unfold saturate least128 greatest128
  omega

theorem saturate_of_range (hf : f.Valid) {n : Int} (h : ¬ (n < f.rawMin ∨ f.rawMax < n)) :
    saturate n = n := by
  have := Field.range_bounds hf
  unfold saturate least128 greatest128
  omega

theorem toInt128_eq {x : Binary64} {n : Int} (h : x.toIntRounded? = some n) :
    toInt128 x = saturate n := by
  cases x with
  | finite negative significand exponent => rw [toInt128, h, Option.getD_some]
  | nan => cases h
  | infinity negative => cases h

theorem run_wordOf (hf : f.Valid) (value : Binary64) :
    (wordOf f value).run = some ((f.quantize value).map UInt64.ofInt) := by
  rw [wordOf, Field.quantize]
  generalize value.mul (.ofNat f.scale.toNat) = scaled
  cases hwhole : scaled.toIntRounded? with
  | none =>
    rw [(Binary64.toIntRounded?_eq_none_iff scaled).1 hwhole]
    rfl
  | some n =>
    have hfinite : scaled.isFinite = true := by
      rw [← Bool.not_eq_false, ← Binary64.toIntRounded?_eq_none_iff, hwhole]
      exact Option.some_ne_none n
    have hholds := Layout.holds_iff_range f n
    simp only [hfinite, if_true, toInt128_eq hwhole, saturate_range_iff hf]
    by_cases hrange : n < f.rawMin ∨ f.rawMax < n
    · rw [if_pos hrange, if_neg (by rw [hholds]; omega)]
      rfl
    · rw [if_neg hrange, if_pos (hholds.2 (by omega)), saturate_of_range hf hrange]
      rfl

theorem pushWord_ofInt {width : Nat} (h : width ≤ maxFieldWidth) (raw : Int) (w : BitWriter) :
    pushWord (.ofInt raw) width (.ofBits w) = some (.ofBits (w.put raw width)) := by
  rw [pushWord, if_pos h, writeWord_ofBits _ h, ofNat_toNat_ofInt h]
  rfl

/-! ## Every condition is met -/

theorem run_writeFields (hvalid : ∀ f ∈ fields, f.Valid) (values : List (String × Binary64))
    (w : BitWriter) :
    (writeFields (Layout.lastValue? values) fields (.ofBits w)).run =
      some ((Layout.writeFields (Cargo.engineering values).rawOf fields w).map .ofBits) := by
  induction fields generalizing w with
  | nil => rfl
  | cons f rest ih =>
    obtain ⟨hf, hrest⟩ := List.forall_mem_cons.1 hvalid
    rw [writeFields, Layout.writeFields_cons]
    cases hreserved : f.reserved with
    | true =>
      rw [if_pos rfl, if_pos rfl, show (0 : UInt64) = .ofInt 0 from rfl,
        pushWord_ofInt hf.width_le, lift_bind]
      exact ih hrest _
    | false =>
      rw [if_neg Bool.false_ne_true, if_neg Bool.false_ne_true, Cargo.rawOf]
      cases Layout.lastValue? values f.name with
      | none => rfl
      | some value =>
        have hword := run_wordOf hf value
        dsimp only
        cases hquantize : f.quantize value with
        | error refusal =>
          rw [hquantize] at hword
          exact run_bind_of_error hword
        | ok raw =>
          rw [hquantize] at hword
          refine (run_bind_of_ok hword).trans ?_
          rw [pushWord_ofInt hf.width_le, lift_bind]
          exact ih hrest _

theorem run_packValues (l : Layout) (values : List (String × Binary64)) :
    (packValues l values).run = some (l.packValues values) := by
  have htable := run_enter l (fun _ => none) values
  rw [Layout.packValues]
  cases hunknown : l.unknownName? values with
  | some name =>
    rw [hunknown] at htable
    exact run_bind_of_error htable
  | none =>
    simp only [hunknown, Option.or_none] at htable
    have hwritten := run_writeFields l.fields_valid values .empty
    refine (run_bind_of_ok htable).trans ?_
    show _ = some (l.packRaw (Cargo.engineering values).rawOf)
    rw [Layout.packRaw]
    cases hfields : Layout.writeFields (Cargo.engineering values).rawOf l.fields .empty with
    | error refusal =>
      rw [hfields] at hwritten
      exact run_bind_of_error hwritten
    | ok w =>
      rw [hfields] at hwritten
      exact run_bind_of_ok hwritten

end Checked

namespace Layout

/-! ## What becomes of the values -/

/-- What packing makes of a list of engineering values. -/
structure Encodes (l : Layout) (values : List (String × Binary64))
    (result : Except FieldError Bytes) : Prop where
  /-- The first name in the list that is unknown or reserved is refused. -/
  unknownField : ∀ name, result = .error (.unknownField name) ↔
    ∃ before value behind, values = before ++ (name, value) :: behind ∧
      (∀ pair ∈ before, l.Reportable pair.1) ∧ ¬ l.Reportable name
  /-- If there is no such name, the first field in wire order that takes no integer is refused, for
  the reason that it has. -/
  fieldError : (∀ pair ∈ values, l.Reportable pair.1) → ∀ error, result = .error error ↔
    ∃ front f behind, l.reported = front ++ f :: behind ∧
      (∀ g ∈ front, ∃ raw, Takes values g raw) ∧ Rejects values f error
  /-- If there is no such field either, the values are packed. -/
  ok_iff : (∃ packed, result = .ok packed) ↔
    (∀ pair ∈ values, l.Reportable pair.1) ∧ ∀ f ∈ l.reported, ∃ raw, Takes values f raw
  /-- What was packed has the bytes that the layout needs. -/
  length : ∀ packed, result = .ok packed → packed.length = l.frameBytes
  /-- It is unpacked up to the end of the layout, to the reported fields, and each of them has the
  integer that it took. -/
  unpack : ∀ packed, result = .ok packed →
    ∃ record, l.unpack packed = .ok record ∧ record.consumedBits = l.frameBits ∧
      record.entries.map Prod.fst = l.reported.map Field.name ∧
      ∀ f ∈ l.reported, ∃ value, record.get? f.name = some value ∧ Takes values f value.raw
  /-- The bits of reserved fields are zero, and so are those behind the last field. -/
  zero : ∀ packed, result = .ok packed →
    ∀ i, l.HasBit true i ∨ l.frameBits ≤ i → packed.bitAt i = false
  /-- A value that is replaced by a later one could as well be left out, also one that no field
  holds. -/
  replaced : ∀ before name value behind, values = before ++ (name, value) :: behind →
    l.Reportable name → (∃ later ∈ behind, later.1 = name) →
    result = l.packValues (before ++ behind)
  /-- Packing with machine integers meets every condition on the way, and gives the same. -/
  checked : (Checked.packValues l values).run = some result

/-- **Packing looks at the names first and then at the fields,** and if nothing goes wrong it writes
just the integers that the fields take of their last values. -/
theorem packValues_encodes (l : Layout) (values : List (String × Binary64)) :
    l.Encodes values (l.packValues values) where
  unknownField := fun _ => packValues_eq_unknownField_iff
  fieldError := fun hnames _ => packValues_eq_error_iff hnames
  ok_iff := exists_packValues_eq_ok_iff
  length := fun _ hpacked => length_of_pack (c := .engineering values) hpacked
  unpack := fun _ hpacked => unpack_of_packValues hpacked
  zero := fun _ hpacked _ hi => bitAt_of_pack (c := .engineering values) hpacked hi
  replaced := by
    rintro before name value behind rfl hname hlater
    exact packValues_replaced hname hlater
  checked := Checked.run_packValues l values

/-- A level of 9 is out of range, but it is replaced by a level of 5. -/
example :
    unsignedPair.packValues [("level", .ofNat 9), ("sign", .ofNat 1), ("level", .ofNat 5)] =
      .ok [0xb0] := by
  rfl

end Layout

end Downlink
