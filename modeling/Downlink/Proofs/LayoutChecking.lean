import Mathlib.Algebra.GroupWithZero.Nat
import Downlink.Proofs.PayloadReading

/-!
# Which field lists are layouts

A field list is looked at once, from its first field on. A field is faulty for its width, for its
scale, or for a name that a field in front of it has, in this order (`Field.Faulty`). The first
faulty field is the one that is reported, whatever is wrong behind it (`fieldsFault?_eq_some_iff`);
and only a list without any is compared with the length that was declared for it.

The list can be looked at with a table of the names seen so far and with lengths in words of 64 bits.
The sum of widths that nobody has checked may be too large for a word. But then one of them is too
large for a field, and this is reported before the lengths are compared (`Checked.ofFields_eq`).

This settles which layouts can be built and why others cannot (`Layout.fields_admitted`).
-/

namespace Downlink

namespace Field

variable {f : Field} {names : List String} {error : FieldError}

/-! ## One field -/

/-- What is wrong with a field that stands behind fields of these names. -/
inductive Faulty (names : List String) (f : Field) : FieldError → Prop
  | width (hwidth : ¬ (1 ≤ f.width ∧ f.width ≤ 64)) : Faulty names f (.invalidWidth f.name f.width)
  | scale (hwidth : 1 ≤ f.width ∧ f.width ≤ 64) (hscale : f.scale = 0) :
    Faulty names f (.zeroScale f.name)
  | name (hwidth : 1 ≤ f.width ∧ f.width ≤ 64) (hscale : f.scale ≠ 0) (hname : f.name ∈ names) :
    Faulty names f (.duplicateField f.name)

/-- The first fault of a field behind fields of these names. -/
def faultBehind? (names : List String) (f : Field) : Option FieldError :=
  f.fault?.or (if f.name ∈ names then some (.duplicateField f.name) else none)

theorem valid_iff : f.Valid ↔ (1 ≤ f.width ∧ f.width ≤ 64) ∧ f.scale ≠ 0 := by
  constructor
  · rintro ⟨hpos, hle, hscale⟩
    exact ⟨⟨hpos, hle⟩, hscale⟩
  · rintro ⟨⟨hpos, hle⟩, hscale⟩
    exact ⟨hpos, hle, hscale⟩

theorem faultBehind?_eq_some_iff :
    f.faultBehind? names = some error ↔ f.Faulty names error := by
  have hwidth : (f.width = 0 ∨ maxFieldWidth < f.width) ↔ ¬ (1 ≤ f.width ∧ f.width ≤ 64) := by
    rw [maxFieldWidth]
    omega
  constructor
  · intro h
    rw [faultBehind?, fault?] at h
    simp only [hwidth] at h
    split at h
    · next hout =>
      obtain rfl := Option.some.inj h
      exact .width hout
    · next hin =>
      rw [Decidable.not_not] at hin
      split at h
      · next hscale =>
        obtain rfl := Option.some.inj h
        exact .scale hin hscale
      · next hscale =>
        split at h
        · next hname =>
          obtain rfl := Option.some.inj h
          exact .name hin hscale hname
        · cases h
  · intro h
    rw [faultBehind?, fault?]
    simp only [hwidth]
    cases h with
    | width hout => rw [if_pos hout]; rfl
    | scale hin hscale => rw [if_neg (not_not_intro hin), if_pos hscale]; rfl
    | name hin hscale hname =>
      rw [if_neg (not_not_intro hin), if_neg hscale, if_pos hname]; rfl

theorem Faulty.congr {others : List String} (h : f.Faulty names error)
    (hnames : ∀ name ∈ names, name ∈ others) : f.Faulty others error := by
  cases h with
  | width hwidth => exact .width hwidth
  | scale hwidth hscale => exact .scale hwidth hscale
  | name hwidth hscale hname => exact .name hwidth hscale (hnames _ hname)

end Field

namespace Layout

variable {fields before rest : List Field} {f : Field} {seen : List String} {error : FieldError}

/-! ## The first fault -/

theorem fieldsFault?_cons :
    fieldsFault? seen (f :: rest) =
      (f.faultBehind? seen).or (fieldsFault? (f.name :: seen) rest) := by
  rw [fieldsFault?, Field.faultBehind?]
  cases f.fault? with
  | some fault => rfl
  | none =>
    dsimp only [Option.none_or]
    split
    · rfl
    · rfl

theorem fieldsFault?_append (seen : List String) (before rest : List Field) :
    fieldsFault? seen (before ++ rest) =
      (fieldsFault? seen before).or
        (fieldsFault? ((before.map Field.name).reverse ++ seen) rest) := by
  induction before generalizing seen with
  | nil => rfl
  | cons g before ih =>
    rw [List.cons_append, fieldsFault?_cons, fieldsFault?_cons, ih, Option.or_assoc, List.map_cons,
      List.reverse_cons, List.append_assoc, List.singleton_append]

/-- **The first faulty field is reported,** with its first fault. -/
theorem fieldsFault?_eq_some_iff :
    fieldsFault? seen fields = some error ↔
      ∃ before f behind, fields = before ++ f :: behind ∧ fieldsFault? seen before = none ∧
        f.Faulty ((before.map Field.name).reverse ++ seen) error := by
  constructor
  · intro h
    induction fields generalizing seen with
    | nil => cases h
    | cons g rest ih =>
      cases hfault : g.faultBehind? seen with
      | some fault =>
        rw [fieldsFault?_cons, hfault, Option.some_or] at h
        obtain rfl := Option.some.inj h
        exact ⟨[], g, rest, rfl, rfl, Field.faultBehind?_eq_some_iff.1 hfault⟩
      | none =>
        rw [fieldsFault?_cons, hfault, Option.none_or] at h
        obtain ⟨before, f, behind, rfl, hbefore, hfaulty⟩ := ih h
        refine ⟨g :: before, f, behind, rfl, ?_, ?_⟩
        · rw [fieldsFault?_cons, hfault, Option.none_or, hbefore]
        · rw [List.map_cons, List.reverse_cons, List.append_assoc, List.singleton_append]
          exact hfaulty
  · rintro ⟨before, f, behind, rfl, hbefore, hfaulty⟩
    rw [fieldsFault?_append, hbefore, Option.none_or, fieldsFault?_cons,
      Field.faultBehind?_eq_some_iff.2 hfaulty, Option.some_or]

/-- Fields of which none is faulty. -/
structure Sound (fields : List Field) : Prop where
  valid : ∀ f ∈ fields, f.Valid
  distinct : (fields.map Field.name).Nodup

theorem sound_iff : Sound fields ↔ fieldsFault? [] fields = none := by
  rw [fieldsFault?_eq_none_iff]
  constructor
  · rintro ⟨hvalid, hdistinct⟩
    exact ⟨hvalid, hdistinct, fun f _ => List.not_mem_nil⟩
  · rintro ⟨hvalid, hdistinct, -⟩
    exact ⟨hvalid, hdistinct⟩

/-- The first fault among fields: a field has it, and no field in front of that one is faulty. -/
def FirstFault (fields : List Field) (error : FieldError) : Prop :=
  ∃ before f behind, fields = before ++ f :: behind ∧ Sound before ∧
    f.Faulty (before.map Field.name) error

theorem firstFault_iff : FirstFault fields error ↔ fieldsFault? [] fields = some error := by
  simp only [FirstFault, fieldsFault?_eq_some_iff, sound_iff, List.append_nil]
  constructor
  · rintro ⟨before, f, behind, hfields, hbefore, hfaulty⟩
    exact ⟨before, f, behind, hfields, hbefore, hfaulty.congr fun _ => List.mem_reverse.2⟩
  · rintro ⟨before, f, behind, hfields, hbefore, hfaulty⟩
    exact ⟨before, f, behind, hfields, hbefore, hfaulty.congr fun _ => List.mem_reverse.1⟩

/-! ## Building -/

theorem ofFields_of_firstFault (h : FirstFault fields error) (declared : Nat) :
    ofFields fields declared = .error error := by
  rw [firstFault_iff] at h
  unfold ofFields
  split
  · next fault hfault =>
    rw [hfault] at h
    rw [Option.some.inj h]
  · next hnone =>
    rw [hnone] at h
    cases h

theorem ofFields_of_sound (h : Sound fields) (declared : Nat) :
    ofFields fields declared =
      if totalWidth fields = declared then .ok ⟨fields, h.valid, h.distinct⟩
      else .error (.lengthMismatch declared (totalWidth fields)) := by
  have hnone := sound_iff.1 h
  unfold ofFields
  split
  · next fault hfault =>
    rw [hnone] at hfault
    cases hfault
  · rfl

theorem sound_or_firstFault (fields : List Field) :
    Sound fields ∨ ¬ Sound fields ∧ ∃ fault, FirstFault fields fault := by
  simp only [sound_iff, firstFault_iff]
  cases hfault : fieldsFault? [] fields with
  | none => exact .inl rfl
  | some fault => exact .inr ⟨Option.some_ne_none fault, fault, rfl⟩

/-- **Just the sound fields that have the declared length are a layout.** -/
theorem ofFields_eq_ok_iff {declared : Nat} {l : Layout} :
    ofFields fields declared = .ok l ↔
      l.fields = fields ∧ Sound fields ∧ totalWidth fields = declared := by
  rcases sound_or_firstFault fields with hsound | ⟨hnot, fault, hfault⟩
  · rw [ofFields_of_sound hsound]
    by_cases hlength : totalWidth fields = declared
    · rw [if_pos hlength, Except.ok.injEq]
      constructor
      · rintro rfl
        exact ⟨rfl, hsound, hlength⟩
      · rintro ⟨rfl, -, -⟩
        rfl
    · rw [if_neg hlength]
      exact iff_of_false (fun h => by cases h) fun h => hlength h.2.2
  · rw [ofFields_of_firstFault hfault]
    exact iff_of_false (fun h => by cases h) fun h => hnot h.2.1

/-- **A field list is refused for its first fault,** and for its length if it has none. -/
theorem ofFields_eq_error_iff {declared : Nat} :
    ofFields fields declared = .error error ↔
      FirstFault fields error ∨
        (Sound fields ∧ totalWidth fields ≠ declared ∧
          error = .lengthMismatch declared (totalWidth fields)) := by
  rcases sound_or_firstFault fields with hsound | ⟨hnot, fault, hfault⟩
  · have hnone : ¬ FirstFault fields error := by
      rw [firstFault_iff, sound_iff.1 hsound]
      exact (Option.some_ne_none error).symm
    rw [ofFields_of_sound hsound, or_iff_right hnone, and_iff_right hsound]
    by_cases hlength : totalWidth fields = declared
    · rw [if_pos hlength]
      exact iff_of_false (fun h => by cases h) fun h => h.1 hlength
    · rw [if_neg hlength, and_iff_right hlength, Except.error.injEq, eq_comm]
  · rw [ofFields_of_firstFault hfault, Except.error.injEq]
    constructor
    · rintro rfl
      exact .inl hfault
    · rintro (hfirst | ⟨hsound, -⟩)
      · rw [firstFault_iff] at hfault hfirst
        rw [hfault] at hfirst
        exact Option.some.inj hfirst
      · exact absurd hsound hnot

theorem totalWidth_le_of_valid (h : ∀ f ∈ fields, f.Valid) :
    totalWidth fields ≤ 64 * fields.length := by
  induction fields with
  | nil => exact Nat.le_refl 0
  | cons f rest ih =>
    obtain ⟨hf, hrest⟩ := List.forall_mem_cons.1 h
    have hwidth : f.width ≤ 64 := hf.width_le
    have := ih hrest
    rw [totalWidth_cons, List.length_cons]
    omega

end Layout

namespace Checked

open Layout (fieldsFault? fieldsFault?_cons)

variable {fields : List Field} {error : FieldError}

/-! ## Building with tables and words -/

/-- A field list with all that is looked up in it. -/
structure Indexed where
  fields : List Field
  frameBits : UInt64
  /-- The place of the field of each slot. -/
  slots : List Nat
  /-- The slot of each name that a record has. -/
  index : String → Option Nat

/-- What was found in the fields so far. -/
structure Scan where
  /-- The place of each name. -/
  seen : String → Option Nat
  slots : List Nat
  index : String → Option Nat

def Scan.empty : Scan :=
  ⟨fun _ => none, [], fun _ => none⟩

/-- Enters the field at a place. Reserved fields get no slot. -/
def Scan.enter (s : Scan) (place : Nat) (f : Field) : Scan :=
  let seen := fun name => if name = f.name then some place else s.seen name
  if f.reserved then { s with seen := seen }
  else
    { seen := seen
      slots := s.slots ++ [place]
      index := fun name => if name = f.name then some s.slots.length else s.index name }

/-- Enters the fields from a place on, up to one that is faulty. -/
def scan (s : Scan) (place : Nat) : List Field → Except FieldError Scan
  | [] => .ok s
  | f :: rest =>
    match f.fault? with
    | some fault => .error fault
    | none =>
      if (s.seen f.name).isSome then .error (.duplicateField f.name)
      else scan (s.enter place f) (place + 1) rest

/-- The sum of the widths in a word, which may be too small for it. -/
def sumOfWidths (fields : List Field) : UInt64 :=
  fields.foldl (fun sum f => sum + .ofNat f.width) 0

def ofFields (fields : List Field) (declared : UInt64) : Except FieldError Indexed := do
  let s ← scan .empty 0 fields
  let actual := sumOfWidths fields
  if actual ≠ declared then throw (.lengthMismatch declared.toNat actual.toNat)
  return ⟨fields, declared, s.slots, s.index⟩

/-- A length that is left out is the sum of the widths, before anyone has checked them. -/
def build (fields : List Field) (frameBits : Option UInt64) : Except FieldError Indexed :=
  ofFields fields (frameBits.getD (sumOfWidths fields))

theorem seen_enter (s : Scan) (place : Nat) (f : Field) (name : String) :
    (s.enter place f).seen name = if name = f.name then some place else s.seen name := by
  unfold Scan.enter
  split
  · rfl
  · rfl

theorem scan_eq_error_iff {s : Scan} {place : Nat} {seen : List String}
    (hseen : ∀ name, (s.seen name).isSome = true ↔ name ∈ seen) :
    scan s place fields = .error error ↔ fieldsFault? seen fields = some error := by
  induction fields generalizing s place seen with
  | nil => exact iff_of_false (fun h => by cases h) (fun h => by cases h)
  | cons f rest ih =>
    rw [scan, fieldsFault?]
    cases f.fault? with
    | some fault => simp
    | none =>
      dsimp only
      by_cases hname : f.name ∈ seen
      · rw [if_pos ((hseen f.name).2 hname), if_pos hname]
        simp
      · rw [if_neg (mt (hseen f.name).1 hname), if_neg hname]
        refine ih fun name => ?_
        rw [seen_enter, List.mem_cons]
        by_cases heq : name = f.name
        · simp [heq]
        · simp [heq, hseen]

theorem toNat_sumOfWidths (fields : List Field) :
    (sumOfWidths fields).toNat = Layout.totalWidth fields % 2 ^ 64 := by
  have hfold : ∀ start : UInt64,
      (fields.foldl (fun sum f => sum + .ofNat f.width) start).toNat =
        (start.toNat + Layout.totalWidth fields) % 2 ^ 64 := by
    induction fields with
    | nil =>
      intro start
      exact (Nat.mod_eq_of_lt start.toNat_lt).symm
    | cons f rest ih =>
      intro start
      rw [List.foldl_cons, ih, Layout.totalWidth_cons, UInt64.toNat_add, UInt64.toNat_ofNat']
      omega
  rw [sumOfWidths, hfold]
  simp

/-- **Widths that were checked have a sum that fits in a word,** of as many fields as there can be in
memory. -/
theorem toNat_sumOfWidths_of_valid (hvalid : ∀ f ∈ fields, f.Valid)
    (hcount : fields.length < 2 ^ 58) : (sumOfWidths fields).toNat = Layout.totalWidth fields := by
  have hle := Layout.totalWidth_le_of_valid hvalid
  rw [toNat_sumOfWidths, Nat.mod_eq_of_lt (by omega)]

theorem scan_empty_eq_error_iff :
    scan .empty 0 fields = .error error ↔ fieldsFault? [] fields = some error :=
  scan_eq_error_iff fun _ => by simp [Scan.empty]

/-- **With tables and words the same is built, and the same is refused.** -/
theorem ofFields_eq (hcount : fields.length < 2 ^ 58) (declared : UInt64) :
    (ofFields fields declared).map (fun built => (built.fields, built.frameBits.toNat)) =
      (Layout.ofFields fields declared.toNat).map fun l => (l.fields, l.frameBits) := by
  rw [ofFields]
  cases hscan : scan .empty 0 fields with
  | error fault =>
    have hfirst := Layout.firstFault_iff.2 (scan_empty_eq_error_iff.1 hscan)
    rw [Layout.ofFields_of_firstFault hfirst]
    rfl
  | ok s =>
    have hsound : Layout.Sound fields := by
      rcases Layout.sound_or_firstFault fields with hsound | ⟨-, fault, hfirst⟩
      · exact hsound
      · rw [scan_empty_eq_error_iff.2 (Layout.firstFault_iff.1 hfirst)] at hscan
        cases hscan
    have hsum := toNat_sumOfWidths_of_valid hsound.valid hcount
    rw [Layout.ofFields_of_sound hsound, ← hsum]
    by_cases hlength : sumOfWidths fields = declared
    · subst hlength
      simp only [bind, Except.bind, ne_eq, not_true_eq_false, if_false, if_true]
      show Except.ok (fields, (sumOfWidths fields).toNat) = _
      rw [hsum]
      rfl
    · simp only [bind, Except.bind, ne_eq, hlength, not_false_eq_true, if_true,
        mt UInt64.toNat_inj.1 hlength, if_false]
      rfl

/-- A length that is left out is never at fault, even if the sum was too large for a word. -/
theorem build_eq (hcount : fields.length < 2 ^ 58) (frameBits : Option UInt64) :
    (build fields frameBits).map (fun built => (built.fields, built.frameBits.toNat)) =
      (Layout.Draft.build ⟨fields, frameBits.map UInt64.toNat⟩).map
        fun l => (l.fields, l.frameBits) := by
  rw [build, ofFields_eq hcount, Layout.Draft.build]
  cases frameBits with
  | some declared => rfl
  | none =>
    simp only [Option.getD_none, Option.map_none]
    rcases Layout.sound_or_firstFault fields with hsound | ⟨-, fault, hfirst⟩
    · rw [toNat_sumOfWidths_of_valid hsound.valid hcount]
    · -- The first fault is reported whatever the length.
      rw [Layout.ofFields_of_firstFault hfirst, Layout.ofFields_of_firstFault hfirst]

end Checked

namespace Layout

variable {fields : List Field} {error : FieldError}

/-! ## What becomes of a field list -/

theorem totalWidth_eq_sum (fields : List Field) :
    totalWidth fields = (fields.map Field.width).sum := by
  induction fields with
  | nil => rfl
  | cons f rest ih => rw [totalWidth_cons, List.map_cons, List.sum_cons, ih]

theorem sound_iff_forall :
    Sound fields ↔ (∀ f ∈ fields, (1 ≤ f.width ∧ f.width ≤ 64) ∧ f.scale ≠ 0) ∧
      (fields.map Field.name).Nodup := by
  simp only [← Field.valid_iff]
  exact ⟨fun h => ⟨h.valid, h.distinct⟩, fun h => ⟨h.1, h.2⟩⟩

/-- What becomes of a field list and the length declared for it. -/
structure Judges (fields : List Field) (declared : Nat) (result : Except FieldError Layout) :
    Prop where
  /-- It is a layout just when all widths and scales can be used, no name occurs twice, and the
  widths add up to the length. -/
  ok_iff : (∃ l, result = .ok l) ↔
    (∀ f ∈ fields, (1 ≤ f.width ∧ f.width ≤ 64) ∧ f.scale ≠ 0) ∧
      (fields.map Field.name).Nodup ∧ (fields.map Field.width).sum = declared
  /-- This layout has these fields and this length. -/
  built : ∀ l, result = .ok l → l.fields = fields ∧ l.frameBits = declared
  /-- Otherwise the first faulty field is reported, for its first fault. If none is, it is the
  length. -/
  error_iff : ∀ error, result = .error error ↔
    FirstFault fields error ∨
      (Sound fields ∧ (fields.map Field.width).sum ≠ declared ∧
        error = .lengthMismatch declared (fields.map Field.width).sum)
  /-- The length is reported in this case only. -/
  lengthMismatch_iff : ∀ expected actual, result = .error (.lengthMismatch expected actual) ↔
    Sound fields ∧ actual ≠ expected ∧ expected = declared ∧ actual = (fields.map Field.width).sum

theorem not_firstFault_lengthMismatch {expected actual : Nat} :
    ¬ FirstFault fields (.lengthMismatch expected actual) := by
  rintro ⟨before, f, behind, -, -, hfaulty⟩
  cases hfaulty

theorem ofFields_judged (fields : List Field) (declared : Nat) :
    Judges fields declared (ofFields fields declared) where
  ok_iff := by
    simp only [ofFields_eq_ok_iff]
    rw [← and_assoc, ← sound_iff_forall, ← totalWidth_eq_sum]
    constructor
    · rintro ⟨l, -, hsound, hlength⟩
      exact ⟨hsound, hlength⟩
    · rintro ⟨hsound, hlength⟩
      exact ⟨⟨fields, hsound.valid, hsound.distinct⟩, rfl, hsound, hlength⟩
  built := by
    intro l hbuilt
    obtain ⟨hfields, -, hlength⟩ := ofFields_eq_ok_iff.1 hbuilt
    exact ⟨hfields, by rw [frameBits, hfields, hlength]⟩
  error_iff := fun error => by
    rw [ofFields_eq_error_iff, ← totalWidth_eq_sum]
  lengthMismatch_iff := by
    intro expected actual
    rw [ofFields_eq_error_iff, or_iff_right not_firstFault_lengthMismatch, ← totalWidth_eq_sum]
    constructor
    · rintro ⟨hsound, hlength, herror⟩
      obtain ⟨rfl, rfl⟩ := FieldError.lengthMismatch.inj herror
      exact ⟨hsound, hlength, rfl, rfl⟩
    · rintro ⟨hsound, hlength, rfl, rfl⟩
      exact ⟨hsound, hlength, rfl⟩

/-- What can be built of a field list. -/
structure Admits (fields : List Field) : Prop where
  judged : ∀ declared, Judges fields declared (ofFields fields declared)
  /-- A draft with a length is built as its fields are with this length. -/
  declared : ∀ declared, (Draft.mk fields (some declared)).build = ofFields fields declared
  /-- One without a length is built with the sum of the widths. -/
  leftOut : Judges fields (fields.map Field.width).sum (Draft.mk fields none).build
  /-- So it is never refused for its length. -/
  leftOut_ne : ∀ expected actual,
    (Draft.mk fields none).build ≠ .error (.lengthMismatch expected actual)
  /-- With tables and words it comes to the same, of as many fields as there can be in memory. -/
  checked : fields.length < 2 ^ 58 → ∀ frameBits : Option UInt64,
    (Checked.build fields frameBits).map (fun built => (built.fields, built.frameBits.toNat)) =
      (Draft.mk fields (frameBits.map UInt64.toNat)).build.map fun l => (l.fields, l.frameBits)

/-- **Just the valid field lists are layouts, and of any other the first fault is reported.** -/
theorem fields_admitted (fields : List Field) : Admits fields where
  judged := ofFields_judged fields
  declared := fun _ => rfl
  leftOut := by
    have hbuild : (Draft.mk fields none).build = ofFields fields (fields.map Field.width).sum := by
      rw [← totalWidth_eq_sum]
      rfl
    rw [hbuild]
    exact ofFields_judged fields _
  leftOut_ne := by
    intro expected actual
    have hbuild : (Draft.mk fields none).build = ofFields fields (totalWidth fields) := rfl
    rw [hbuild, ne_eq, ofFields_eq_error_iff]
    rintro (hfirst | ⟨-, hdiffer, -⟩)
    · exact not_firstFault_lengthMismatch hfirst
    · exact hdiffer rfl
  checked := fun hcount => Checked.build_eq hcount

/-- The second field has a scale of zero and the name of the first; the third has this name too, and
is too wide. Only the scale is reported. -/
example :
    ofFields
        [.unsigned "level" 3, (Field.unsigned "level" 64).withScale 0, .padding "level" 65] 4 =
      .error (.zeroScale "level") := by
  rfl

end Layout

end Downlink
