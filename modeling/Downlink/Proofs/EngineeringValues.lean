import Downlink.Proofs.Transcoding

/-!
# Packing engineering values

Engineering values are listed with names, and a name may be listed several times. Only the last
value of a name counts (`LastListed`); a field takes an integer of it (`Takes`), or there is a reason
why it takes none (`Rejects`). What was listed for the name before could as well be left out, be it
in range or not (`packValues_replaced`).

Two things can go wrong, and names come before values. The first name that no field reports is
refused, wherever the fields stand (`packValues_eq_unknownField_iff`); and if there is none, the
first field in wire order that takes no integer, wherever its name stands
(`packValues_eq_error_iff`).
-/

namespace Downlink

theorem Binary64.toIntRounded?_eq_none_iff (x : Binary64) :
    x.toIntRounded? = none ↔ x.isFinite = false := by
  cases x <;> simp [toIntRounded?, isFinite]

theorem Field.quantize_eq_error_iff {f : Field} {value : Binary64} {error : FieldError} :
    f.quantize value = .error error ↔ error = f.outOfRange value ∧
      ((value.mul (.ofNat f.scale.toNat)).isFinite = false ∨
        ∃ raw, (value.mul (.ofNat f.scale.toNat)).toIntRounded? = some raw ∧
          (raw < f.rawMin ∨ f.rawMax < raw)) := by
  rw [quantize, ← Binary64.toIntRounded?_eq_none_iff]
  cases (value.mul (.ofNat f.scale.toNat)).toIntRounded? with
  | none => simp [eq_comm]
  | some raw =>
    have hrange : f.holds raw = false ↔ raw < f.rawMin ∨ f.rawMax < raw := by
      rw [← Bool.not_eq_true, Layout.holds_iff_range]
      omega
    cases hholds : f.holds raw <;> simp [← hrange, hholds, eq_comm]

namespace Layout

variable {l : Layout} {values before behind : List (String × Binary64)} {name : String}
  {value : Binary64} {f : Field} {raw : Int} {error : FieldError} {packed : Bytes}

/-! ## Names -/

/-- Values can be listed for a name: there is a field of this name, and it is not reserved. -/
def Reportable (l : Layout) (name : String) : Prop :=
  ∃ f ∈ l.fields, f.name = name ∧ f.reserved = false

theorem reports_iff (l : Layout) (name : String) : l.reports name = true ↔ l.Reportable name := by
  rw [reports, List.any_eq_true]
  constructor
  · rintro ⟨f, hf, hname⟩
    obtain ⟨hmember, hreported⟩ := List.mem_filter.1 hf
    exact ⟨f, hmember, by simpa using hname, by simpa using hreported⟩
  · rintro ⟨f, hf, hname, hreserved⟩
    exact ⟨f, List.mem_filter.2 ⟨hf, by simp [hreserved]⟩, by simpa using hname⟩

theorem unknownName?_cons (l : Layout) (pair : String × Binary64)
    (rest : List (String × Binary64)) :
    l.unknownName? (pair :: rest) =
      if l.reports pair.1 then l.unknownName? rest else some pair.1 := by
  rw [unknownName?, List.find?_cons]
  cases hreports : l.reports pair.1 <;> simp [hreports, unknownName?]

theorem unknownName?_append (l : Layout) (before behind : List (String × Binary64)) :
    l.unknownName? (before ++ behind) =
      (l.unknownName? before).or (l.unknownName? behind) := by
  rw [unknownName?, List.find?_append, Option.map_or]
  rfl

theorem unknownName?_eq_none_iff :
    l.unknownName? values = none ↔ ∀ pair ∈ values, l.Reportable pair.1 := by
  rw [unknownName?, Option.map_eq_none_iff, List.find?_eq_none]
  simp only [Bool.not_eq_true', Bool.not_eq_false, reports_iff]

theorem unknownName?_eq_some_iff :
    l.unknownName? values = some name ↔
      ∃ before value behind, values = before ++ (name, value) :: behind ∧
        (∀ pair ∈ before, l.Reportable pair.1) ∧ ¬ l.Reportable name := by
  have hreports : ∀ name, l.reports name = false ↔ ¬ l.Reportable name := fun name => by
    rw [← reports_iff, Bool.not_eq_true]
  simp only [unknownName?, Option.map_eq_some_iff, List.find?_eq_some_iff_append,
    Bool.not_eq_true', Bool.not_not, reports_iff, hreports]
  constructor
  · rintro ⟨⟨name, value⟩, ⟨hname, before, behind, hvalues, hbefore⟩, rfl⟩
    exact ⟨before, value, behind, hvalues, hbefore, hname⟩
  · rintro ⟨before, value, behind, hvalues, hbefore, hname⟩
    exact ⟨(name, value), ⟨hname, before, behind, hvalues, hbefore⟩, rfl⟩

/-! ## The last value of a name -/

/-- A value is listed for a name, and none is listed for the name behind it. -/
def LastListed (values : List (String × Binary64)) (name : String) (value : Binary64) : Prop :=
  ∃ before behind, values = before ++ (name, value) :: behind ∧ ∀ later ∈ behind, later.1 ≠ name

theorem lastValue?_eq_some_iff :
    lastValue? values name = some value ↔ LastListed values name value := by
  rw [lastValue?, List.lookup_eq_some_iff]
  constructor
  · rintro ⟨behind, before, hvalues, hbehind⟩
    refine ⟨before.reverse, behind.reverse, ?_, fun later hlater => ?_⟩
    · rw [← List.reverse_reverse values, hvalues]
      simp
    · exact (bne_iff_ne.1 (hbehind later (List.mem_reverse.1 hlater))).symm
  · rintro ⟨before, behind, rfl, hbehind⟩
    refine ⟨behind.reverse, before.reverse, by simp, fun later hlater => ?_⟩
    exact bne_iff_ne.2 (hbehind later (List.mem_reverse.1 hlater)).symm

theorem lastValue?_eq_none_iff :
    lastValue? values name = none ↔ ∀ pair ∈ values, pair.1 ≠ name := by
  simp only [lastValue?, List.lookup_eq_none_iff, List.mem_reverse, bne_iff_ne]
  exact ⟨fun h pair hpair => (h pair hpair).symm, fun h pair hpair => (h pair hpair).symm⟩

theorem lastValue?_cons (name : String) (value : Binary64) (rest : List (String × Binary64))
    (other : String) :
    lastValue? ((name, value) :: rest) other =
      (lastValue? rest other).or (if other = name then some value else none) := by
  rw [lastValue?, List.reverse_cons, List.lookup_append, List.lookup_cons, List.lookup_nil]
  by_cases hname : other = name
  · rw [if_pos hname, beq_iff_eq.2 hname]
    rfl
  · rw [if_neg hname, beq_eq_false_iff_ne.2 hname]
    rfl

theorem lastValue?_append (before behind : List (String × Binary64)) (name : String) :
    lastValue? (before ++ behind) name = (lastValue? behind name).or (lastValue? before name) := by
  rw [lastValue?, List.reverse_append, List.lookup_append]
  rfl

/-! ## What a field takes of the values -/

/-- The integer that a field takes of the values: its last value, scaled and rounded to a whole
number, that lies in the field's range. -/
def Takes (values : List (String × Binary64)) (f : Field) (raw : Int) : Prop :=
  ∃ value, LastListed values f.name value ∧
    (value.mul (.ofNat f.scale.toNat)).toIntRounded? = some raw ∧ f.rawMin ≤ raw ∧ raw ≤ f.rawMax

/-- Why a field takes none. -/
inductive Rejects (values : List (String × Binary64)) (f : Field) : FieldError → Prop
  | missing (hnone : ∀ pair ∈ values, pair.1 ≠ f.name) : Rejects values f (.missingValue f.name)
  /-- The last value has no whole number next to it when it is scaled: it is infinite, or it is not
  a number. -/
  | notFinite {value : Binary64} (hlast : LastListed values f.name value)
      (hscaled : (value.mul (.ofNat f.scale.toNat)).isFinite = false) :
      Rejects values f
        (.valueOutOfRange f.name value (f.engineering f.rawMin) (f.engineering f.rawMax))
  /-- The last value is rounded to an integer that the field does not hold. -/
  | outside {value : Binary64} {raw : Int} (hlast : LastListed values f.name value)
      (hscaled : (value.mul (.ofNat f.scale.toNat)).toIntRounded? = some raw)
      (hrange : raw < f.rawMin ∨ f.rawMax < raw) :
      Rejects values f
        (.valueOutOfRange f.name value (f.engineering f.rawMin) (f.engineering f.rawMax))

theorem rawOf_engineering_eq_ok_iff (values : List (String × Binary64)) (f : Field) (raw : Int) :
    (Cargo.engineering values).rawOf f = .ok raw ↔ Takes values f raw := by
  rw [Cargo.rawOf_eq_ok_iff, holds_iff_range, Cargo.raw?, Option.bind_eq_some_iff]
  simp only [lastValue?_eq_some_iff]
  constructor
  · rintro ⟨⟨value, hlast, hscaled⟩, hrange⟩
    exact ⟨value, hlast, hscaled, hrange⟩
  · rintro ⟨value, hlast, hscaled, hrange⟩
    exact ⟨⟨value, hlast, hscaled⟩, hrange⟩

theorem rawOf_engineering_of_last (h : LastListed values f.name value) :
    (Cargo.engineering values).rawOf f = f.quantize value := by
  rw [Cargo.rawOf, lastValue?_eq_some_iff.2 h]

theorem rawOf_engineering_eq_error_iff (values : List (String × Binary64)) (f : Field)
    (error : FieldError) :
    (Cargo.engineering values).rawOf f = .error error ↔ Rejects values f error := by
  constructor
  · intro h
    cases hvalue : lastValue? values f.name with
    | none =>
      rw [Cargo.rawOf, hvalue] at h
      obtain rfl := Except.error.inj h
      exact .missing (lastValue?_eq_none_iff.1 hvalue)
    | some value =>
      have hlast := lastValue?_eq_some_iff.1 hvalue
      rw [rawOf_engineering_of_last hlast, Field.quantize_eq_error_iff] at h
      obtain ⟨rfl, hscaled | ⟨raw, hscaled, hrange⟩⟩ := h
      · exact .notFinite hlast hscaled
      · exact .outside hlast hscaled hrange
  · intro h
    cases h with
    | missing hnone => rw [Cargo.rawOf, lastValue?_eq_none_iff.2 hnone]
    | notFinite hlast hscaled =>
      rw [rawOf_engineering_of_last hlast, Field.quantize_eq_error_iff]
      exact ⟨rfl, .inl hscaled⟩
    | outside hlast hscaled hrange =>
      rw [rawOf_engineering_of_last hlast, Field.quantize_eq_error_iff]
      exact ⟨rfl, .inr ⟨_, hscaled, hrange⟩⟩

/-! ## Packing -/

theorem packValues_of_reportable (h : ∀ pair ∈ values, l.Reportable pair.1) :
    l.packValues values = l.packRaw (Cargo.engineering values).rawOf := by
  rw [packValues, unknownName?_eq_none_iff.2 h]
  rfl

/-- **The first name that is not reported is refused, before any value is looked at.** -/
theorem packValues_eq_unknownField_iff :
    l.packValues values = .error (.unknownField name) ↔
      ∃ before value behind, values = before ++ (name, value) :: behind ∧
        (∀ pair ∈ before, l.Reportable pair.1) ∧ ¬ l.Reportable name := by
  rw [← unknownName?_eq_some_iff]
  cases hunknown : l.unknownName? values with
  | some other =>
    rw [packValues, hunknown]
    simp
  | none =>
    refine iff_of_false (fun herror => ?_) (fun h => by cases h)
    rw [packValues_of_reportable (unknownName?_eq_none_iff.1 hunknown),
      packRaw_eq_error_iff] at herror
    obtain ⟨front, f, behind, -, -, hrefused⟩ := herror
    -- No field is refused for an unknown name.
    cases (rawOf_engineering_eq_error_iff _ _ _).1 hrefused

/-- **With names that are all reported, the first field that takes no integer is refused.** -/
theorem packValues_eq_error_iff (h : ∀ pair ∈ values, l.Reportable pair.1) :
    l.packValues values = .error error ↔
      ∃ front f behind, l.reported = front ++ f :: behind ∧
        (∀ g ∈ front, ∃ raw, Takes values g raw) ∧ Rejects values f error := by
  simp only [packValues_of_reportable h, packRaw_eq_error_iff, rawOf_engineering_eq_ok_iff,
    rawOf_engineering_eq_error_iff]

theorem exists_packValues_eq_ok_iff :
    (∃ packed, l.packValues values = .ok packed) ↔
      (∀ pair ∈ values, l.Reportable pair.1) ∧ ∀ f ∈ l.reported, ∃ raw, Takes values f raw := by
  cases hunknown : l.unknownName? values with
  | some name =>
    refine iff_of_false ?_ ?_
    · rintro ⟨packed, hpacked⟩
      rw [packValues, hunknown] at hpacked
      cases hpacked
    · rintro ⟨hnames, -⟩
      rw [unknownName?_eq_none_iff.2 hnames] at hunknown
      cases hunknown
  | none =>
    have hnames := unknownName?_eq_none_iff.1 hunknown
    simp only [packValues_of_reportable hnames, exists_packRaw_eq_ok_iff,
      rawOf_engineering_eq_ok_iff, and_iff_right hnames]

/-! ## What was packed -/

theorem unpack_of_packValues (h : l.packValues values = .ok packed) :
    ∃ record, l.unpack packed = .ok record ∧ record.consumedBits = l.frameBits ∧
      record.entries.map Prod.fst = l.reported.map Field.name ∧
      ∀ f ∈ l.reported, ∃ value, record.get? f.name = some value ∧ Takes values f value.raw := by
  have hpack : l.pack (.engineering values) = .ok packed := h
  have hlong : l.frameBits ≤ 8 * packed.length := by
    rw [length_of_pack hpack]
    exact l.frameBits_le
  have hcarries := carries_of_pack hpack
  obtain ⟨raws, hraws, -⟩ := exists_raw_of_pack hpack
  refine ⟨_, unpack_of_le hlong, hcarries.consumedBits, hcarries.names, fun f hf => ?_⟩
  have hraw := hcarries.raw f hf
  rw [(hraws f hf).1] at hraw
  obtain ⟨value, hvalue, heq⟩ := Option.map_eq_some_iff.1 hraw
  have htakes : Takes values f value.raw := by
    rw [heq, ← rawOf_engineering_eq_ok_iff, Cargo.rawOf_eq_ok_iff]
    exact hraws f hf
  exact ⟨value, hvalue, htakes⟩

theorem bitAt_of_pack {c : Cargo} (h : l.pack c = .ok packed) {i : Nat}
    (hi : l.HasBit true i ∨ l.frameBits ≤ i) : packed.bitAt i = false := by
  obtain ⟨raws, -, rfl⟩ := exists_raw_of_pack h
  refine l.bitAt_toBytes_bitsOf raws fun hreported => ?_
  obtain ⟨hinside, hnot⟩ := (l.hasBit_false_iff i).1 hreported
  rcases hi with hreserved | hbehind
  · exact hnot hreserved
  · omega

/-! ## Values that are replaced -/

theorem lastValue?_replaced (hlater : ∃ later ∈ behind, later.1 = name) (other : String) :
    lastValue? (before ++ (name, value) :: behind) other = lastValue? (before ++ behind) other := by
  have hcons : lastValue? ((name, value) :: behind) other = lastValue? behind other := by
    rw [lastValue?_cons]
    by_cases hname : other = name
    · subst hname
      have hsome : lastValue? behind other ≠ none := by
        rw [ne_eq, lastValue?_eq_none_iff]
        obtain ⟨later, hmem, hname⟩ := hlater
        exact fun hother => hother later hmem hname
      obtain ⟨last, hlast⟩ := Option.ne_none_iff_exists'.1 hsome
      rw [hlast, Option.some_or]
    · rw [if_neg hname, Option.or_none]
  rw [lastValue?_append, lastValue?_append, hcons]

/-- **A value that is replaced by a later one could as well be left out.** -/
theorem packValues_replaced (hname : l.Reportable name)
    (hlater : ∃ later ∈ behind, later.1 = name) :
    l.packValues (before ++ (name, value) :: behind) = l.packValues (before ++ behind) := by
  have hunknown : l.unknownName? (before ++ (name, value) :: behind) =
      l.unknownName? (before ++ behind) := by
    rw [unknownName?_append, unknownName?_append, unknownName?_cons,
      if_pos ((reports_iff l name).2 hname)]
  simp only [packValues, hunknown, lastValue?_replaced hlater]

end Layout

end Downlink
