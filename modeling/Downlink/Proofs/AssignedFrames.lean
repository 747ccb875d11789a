import Mathlib.Data.List.TakeWhile
import Downlink.CommandLine.Perform
import Downlink.Proofs.ScaledRoundTrip

/-!
# Frames from assignments

A text either assigns a number to a field that the layout reports (`Assigns`), or there is one
reason why it does not (`Refuses`). Assignments are carried out one after another, each where its
field stands in a list that begins with zero for every field. Behind each of them, a field has in
this list the value that it would have if the assignments stood behind the zeros and the last one
counted (`Keeps.apply`). So the command packs what packing makes of the zeros and the assignments
(`payload_of_assigns`).

This settles what the command does with any list of texts (`CommandLine.Host.encode_assigned`). The
bytes of a frame that is made are printed or sent, all of them (`Host.Emits`).
-/

namespace Downlink

namespace Assignment

open Layout (LastListed Rejects Reportable lastValue?)

variable {l : Layout} {text name value : String} {x : Binary64} {pair : String × Binary64}
  {pairs more values values' : List (String × Binary64)} {texts before behind : List String}
  {error : AssignmentError} {cause : FieldError}

/-! ## One assignment -/

/-- The name and the number stand in front of the first equals sign and behind it. -/
def Splits (text name value : String) : Prop :=
  text = name ++ "=" ++ value ∧ '=' ∉ name.toList

theorem split?_of_splits (h : Splits text name value) : split? text = some (name, value) := by
  obtain ⟨rfl, hname⟩ := h
  have hfront : ∀ c ∈ name.toList, decide (c ≠ '=') = true := by
    intro c hc
    rw [decide_eq_true_eq]
    rintro rfl
    exact hname hc
  have hchars : (name ++ "=" ++ value).toList = name.toList ++ '=' :: value.toList := by
    rw [String.toList_append, String.toList_append, List.append_assoc]
    rfl
  rw [split?, hchars, List.dropWhile_append_of_pos hfront, List.takeWhile_append_of_pos hfront]
  simp

theorem splits_or_not (text : String) :
    (∃ name value, Splits text name value) ∨ '=' ∉ text.toList ∧ split? text = none := by
  have hchars := List.takeWhile_append_dropWhile (p := fun c => decide (c ≠ '=')) (l := text.toList)
  cases hrest : text.toList.dropWhile (· ≠ '=') with
  | nil =>
    refine .inr ⟨fun hmem => ?_, by rw [split?, hrest]⟩
    simpa using List.dropWhile_eq_nil_iff.1 hrest _ hmem
  | cons c rest =>
    have hc : c = '=' := by
      have hhead := List.head?_dropWhile_not (fun c => decide (c ≠ '=')) text.toList
      rw [hrest] at hhead
      simpa using hhead
    subst hc
    rw [hrest] at hchars
    refine .inl ⟨String.ofList (text.toList.takeWhile (· ≠ '=')), String.ofList rest, ?_, ?_⟩
    · rw [← String.toList_inj]
      simp only [String.toList_append, String.toList_ofList, List.append_assoc]
      exact hchars.symm
    · rw [String.toList_ofList]
      intro hmem
      simpa using List.mem_takeWhile_imp hmem

/-- A text assigns a number to a field that the layout reports. -/
def Assigns (l : Layout) (text : String) (pair : String × Binary64) : Prop :=
  ∃ name value, Splits text name value ∧ Text.trim name = pair.1 ∧
    Binary64.ofText? (Text.trim value) = .ok pair.2 ∧ l.Reportable pair.1

/-- Why a text assigns nothing, in the order in which this is looked at. -/
inductive Refuses (l : Layout) (text : String) : AssignmentError → Prop
  | malformed (hsign : '=' ∉ text.toList) : Refuses l text (.malformed text)
  | invalidNumber {name value : String} {cause : NumeralError} (hsplits : Splits text name value)
      (hnumber : Binary64.ofText? (Text.trim value) = .error cause) :
      Refuses l text (.invalidNumber name cause)
  | unknownField {name value : String} {x : Binary64} (hsplits : Splits text name value)
      (hnumber : Binary64.ofText? (Text.trim value) = .ok x)
      (hfield : ¬ l.Reportable (Text.trim name)) :
      Refuses l text (.unknownField (Text.trim name))

theorem assigns_or_refuses (l : Layout) (text : String) :
    (∃ pair, Assigns l text pair) ∨ ∃ error, Refuses l text error := by
  rcases splits_or_not text with ⟨name, value, hsplits⟩ | ⟨hsign, -⟩
  · cases hnumber : Binary64.ofText? (Text.trim value) with
    | error cause => exact .inr ⟨_, .invalidNumber hsplits hnumber⟩
    | ok x =>
      by_cases hfield : l.Reportable (Text.trim name)
      · exact .inl ⟨(Text.trim name, x), name, value, hsplits, rfl, hnumber, hfield⟩
      · exact .inr ⟨_, .unknownField hsplits hnumber hfield⟩
  · exact .inr ⟨_, .malformed hsign⟩

theorem parse_of_splits (h : Splits text name value)
    (hnumber : Binary64.ofText? (Text.trim value) = .ok x) :
    parse text = .ok (Text.trim name, x) := by
  rw [parse, split?_of_splits h]
  simp only [hnumber]

/-! ## Setting a value in place -/

theorem set?_eq_none (h : ∀ pair ∈ values, pair.1 ≠ name) : set? name x values = none := by
  induction values with
  | nil => rfl
  | cons pair rest ih =>
    obtain ⟨hpair, hrest⟩ := List.forall_mem_cons.1 h
    rw [set?, if_neg hpair, ih hrest, Option.map_none]

theorem exists_set?_eq (x : Binary64) (h : name ∈ values.map Prod.fst) :
    ∃ front old back, values = front ++ (name, old) :: back ∧
      set? name x values = some (front ++ (name, x) :: back) := by
  induction values with
  | nil => simp at h
  | cons pair rest ih =>
    obtain ⟨field, old⟩ := pair
    by_cases hname : field = name
    · subst hname
      exact ⟨[], old, rest, rfl, by rw [set?, if_pos rfl]; rfl⟩
    · obtain ⟨front, other, back, rfl, hset⟩ :=
        ih ((List.mem_cons.1 h).resolve_left (Ne.symm hname))
      refine ⟨(field, old) :: front, other, back, rfl, ?_⟩
      rw [set?, if_neg hname, hset]
      rfl

theorem lastValue?_inPlace {front back : List (String × Binary64)} {old : Binary64}
    (hnodup : ((front ++ (name, old) :: back).map Prod.fst).Nodup) (x : Binary64) (other : String) :
    lastValue? (front ++ (name, x) :: back) other =
      if other = name then some x else lastValue? (front ++ (name, old) :: back) other := by
  rw [Layout.lastValue?_append, Layout.lastValue?_append, Layout.lastValue?_cons,
    Layout.lastValue?_cons]
  by_cases hname : other = name
  · subst hname
    have hnone : lastValue? back other = none := by
      rw [Layout.lastValue?_eq_none_iff]
      rintro later hlater rfl
      rw [List.map_append, List.map_cons, List.nodup_append] at hnodup
      have hmem : later.1 ∈ back.map Prod.fst := List.mem_map_of_mem hlater
      exact (List.nodup_cons.1 hnodup.2.1).1 hmem
    rw [hnone, if_pos rfl, if_pos rfl]
    rfl
  · rw [if_neg hname, if_neg hname, if_neg hname]

/-! ## Carrying out assignments -/

/-- The values of a list are those that count if the pairs stand behind zeros for all fields. -/
structure Keeps (l : Layout) (pairs values : List (String × Binary64)) : Prop where
  names : values.map Prod.fst = l.reported.map Field.name
  last : ∀ name, lastValue? values name = lastValue? (zeros l ++ pairs) name

theorem map_fst_zeros (l : Layout) : (zeros l).map Prod.fst = l.reported.map Field.name := by
  rw [zeros, List.map_map]
  rfl

theorem keeps_zeros (l : Layout) : Keeps l [] (zeros l) where
  names := map_fst_zeros l
  last := fun _ => by rw [List.append_nil]

theorem mem_names_iff (l : Layout) (name : String) :
    name ∈ l.reported.map Field.name ↔ l.Reportable name := by
  rw [List.mem_map]
  constructor
  · rintro ⟨f, hf, hname⟩
    obtain ⟨hmember, hreported⟩ := List.mem_filter.1 hf
    exact ⟨f, hmember, hname, by simpa using hreported⟩
  · rintro ⟨f, hf, hname, hreserved⟩
    exact ⟨f, List.mem_filter.2 ⟨hf, by simp [hreserved]⟩, hname⟩

/-- **An assignment in place counts like one behind all others.** -/
theorem Keeps.apply (h : Keeps l pairs values) (hassigns : Assigns l text pair) :
    ∃ values', Assignment.apply values text = .ok values' ∧ Keeps l (pairs ++ [pair]) values' := by
  obtain ⟨name, value, hsplits, hname, hnumber, hfield⟩ := hassigns
  have hmem : pair.1 ∈ values.map Prod.fst := by
    rw [h.names, mem_names_iff]
    exact hfield
  obtain ⟨front, old, back, rfl, hset⟩ := exists_set?_eq pair.2 hmem
  have hnodup : ((front ++ (pair.1, old) :: back).map Prod.fst).Nodup := by
    rw [h.names]
    exact l.reported_names_nodup
  refine ⟨front ++ (pair.1, pair.2) :: back, ?_, ?_, fun other => ?_⟩
  · rw [Assignment.apply, parse_of_splits hsplits hnumber, hname]
    simp only [bind, Except.bind, hset, pure, Except.pure]
  · rw [← h.names, List.map_append, List.map_append, List.map_cons, List.map_cons]
  · rw [lastValue?_inPlace hnodup, h.last, ← List.append_assoc, Layout.lastValue?_append _ [pair],
      Layout.lastValue?_cons]
    by_cases hother : other = pair.1
    · rw [if_pos hother, if_pos hother]
      rfl
    · rw [if_neg hother, if_neg hother]
      rfl

theorem apply_of_refuses (h : Keeps l pairs values) (hrefuses : Refuses l text error) :
    Assignment.apply values text = .error error := by
  cases hrefuses with
  | malformed hsign =>
    rcases splits_or_not text with ⟨name, value, rfl, -⟩ | ⟨-, hsplit⟩
    · simp at hsign
    · rw [Assignment.apply, parse, hsplit]
      rfl
  | invalidNumber hsplits hnumber =>
    rw [Assignment.apply, parse, split?_of_splits hsplits]
    simp only [hnumber]
    rfl
  | @unknownField name _ _ hsplits hnumber hfield =>
    rw [← mem_names_iff, ← h.names] at hfield
    have hother : ∀ pair ∈ values, pair.1 ≠ Text.trim name := by
      intro pair hpair hname
      exact hfield (hname ▸ List.mem_map_of_mem hpair)
    rw [Assignment.apply, parse_of_splits hsplits hnumber]
    simp only [bind, Except.bind, set?_eq_none hother]
    rfl

theorem Keeps.foldlM (h : Keeps l pairs values) (hassigns : List.Forall₂ (Assigns l) texts more) :
    ∃ values', texts.foldlM Assignment.apply values = .ok values' ∧
      Keeps l (pairs ++ more) values' := by
  induction hassigns generalizing pairs values with
  | nil => exact ⟨values, rfl, by rwa [List.append_nil]⟩
  | cons hfirst _ ih =>
    obtain ⟨next, hnext, hkeeps⟩ := h.apply hfirst
    obtain ⟨last, hlast, hrest⟩ := ih hkeeps
    refine ⟨last, ?_, ?_⟩
    · rw [List.foldlM_cons, hnext]
      exact hlast
    · rwa [List.append_assoc, List.singleton_append] at hrest

theorem all_assign_or_first_refused (l : Layout) (texts : List String) :
    (∃ pairs, List.Forall₂ (Assigns l) texts pairs) ∨
      ∃ before text behind pairs error, texts = before ++ text :: behind ∧
        List.Forall₂ (Assigns l) before pairs ∧ Refuses l text error := by
  induction texts with
  | nil => exact .inl ⟨[], .nil⟩
  | cons text rest ih =>
    rcases assigns_or_refuses l text with ⟨pair, hpair⟩ | ⟨error, herror⟩
    · rcases ih with ⟨pairs, hpairs⟩ | ⟨before, other, behind, pairs, error, rfl, hbefore, hother⟩
      · exact .inl ⟨pair :: pairs, .cons hpair hpairs⟩
      · exact .inr ⟨text :: before, other, behind, pair :: pairs, error, rfl,
          .cons hpair hbefore, hother⟩
    · exact .inr ⟨[], text, rest, [], error, rfl, .nil, herror⟩

/-! ## Payloads -/

theorem reportable_zeros_append (hpairs : ∀ pair ∈ pairs, l.Reportable pair.1) :
    ∀ pair ∈ zeros l ++ pairs, l.Reportable pair.1 := by
  intro pair hpair
  rcases List.mem_append.1 hpair with hzero | hlisted
  · rw [← mem_names_iff, ← map_fst_zeros]
    exact List.mem_map_of_mem hzero
  · exact hpairs pair hlisted

theorem Keeps.packValues (h : Keeps l pairs values) (hpairs : ∀ pair ∈ pairs, l.Reportable pair.1) :
    l.packValues values = l.packValues (zeros l ++ pairs) := by
  have hnames : ∀ pair ∈ values, l.Reportable pair.1 := by
    intro pair hpair
    rw [← mem_names_iff, ← h.names]
    exact List.mem_map_of_mem hpair
  simp only [Layout.packValues, Layout.unknownName?_eq_none_iff.2 hnames,
    Layout.unknownName?_eq_none_iff.2 (reportable_zeros_append hpairs), h.last]

theorem reportable_of_assigns (h : List.Forall₂ (Assigns l) texts pairs) :
    ∀ pair ∈ pairs, l.Reportable pair.1 := by
  induction h with
  | nil => simp
  | cons hfirst _ ih =>
    obtain ⟨_, _, -, -, -, hfield⟩ := hfirst
    exact List.forall_mem_cons.2 ⟨hfield, ih⟩

/-- **Assignments are packed as the zeros with the assignments behind them.** -/
theorem payload_of_assigns (h : List.Forall₂ (Assigns l) texts pairs) :
    payload l texts = (l.packValues (zeros l ++ pairs)).mapError .notPacked := by
  obtain ⟨values, hvalues, hkeeps⟩ := (keeps_zeros l).foldlM h
  rw [List.nil_append] at hkeeps
  rw [payload, hvalues, ← hkeeps.packValues (reportable_of_assigns h)]
  rfl

theorem payload_of_refuses (h : List.Forall₂ (Assigns l) before pairs)
    (hrefuses : Refuses l text error) : payload l (before ++ text :: behind) = .error error := by
  obtain ⟨values, hvalues, hkeeps⟩ := (keeps_zeros l).foldlM h
  rw [payload, List.foldlM_append, hvalues]
  simp only [bind, Except.bind, List.foldlM_cons, apply_of_refuses hkeeps hrefuses]

/-! ## What counts for a field -/

theorem lastValue?_zeros {f : Field} (hf : f ∈ l.reported) :
    lastValue? (zeros l) f.name = some (.zero false) := by
  cases hvalue : lastValue? (zeros l) f.name with
  | none => exact absurd rfl (Layout.lastValue?_eq_none_iff.1 hvalue _ (List.mem_map_of_mem hf))
  | some value =>
    obtain ⟨front, back, hzeros, -⟩ := Layout.lastValue?_eq_some_iff.1 hvalue
    have hmem : (f.name, value) ∈ zeros l := by
      rw [hzeros]
      exact List.mem_append_right _ List.mem_cons_self
    obtain ⟨g, -, hg⟩ := List.mem_map.1 hmem
    rw [(Prod.mk.inj hg).2]

theorem lastListed_zeros_append_iff {f : Field} (hf : f ∈ l.reported) :
    LastListed (zeros l ++ pairs) f.name x ↔
      LastListed pairs f.name x ∨ (∀ pair ∈ pairs, pair.1 ≠ f.name) ∧ x = .zero false := by
  rw [← Layout.lastValue?_eq_some_iff, ← Layout.lastValue?_eq_some_iff,
    ← Layout.lastValue?_eq_none_iff, Layout.lastValue?_append, lastValue?_zeros hf]
  cases lastValue? pairs f.name with
  | none => simp [eq_comm]
  | some value => simp

theorem valueOutOfRange_of_packValues (hpairs : ∀ pair ∈ pairs, l.Reportable pair.1)
    (h : l.packValues (zeros l ++ pairs) = .error cause) :
    ∃ f ∈ l.reported, ∃ value, LastListed (zeros l ++ pairs) f.name value ∧
      cause = .valueOutOfRange f.name value (f.engineering f.rawMin) (f.engineering f.rawMax) := by
  rw [Layout.packValues_eq_error_iff (reportable_zeros_append hpairs)] at h
  obtain ⟨front, f, back, hreported, -, hrejects⟩ := h
  have hf : f ∈ l.reported := by
    rw [hreported]
    exact List.mem_append_right _ List.mem_cons_self
  refine ⟨f, hf, ?_⟩
  cases hrejects with
  | missing hnone =>
    exact absurd rfl (hnone _ (List.mem_append_left _ (List.mem_map_of_mem hf)))
  | notFinite hlast hscaled => exact ⟨_, hlast, rfl⟩
  | outside hlast hscaled hrange => exact ⟨_, hlast, rfl⟩

end Assignment

/-! ## Zeros -/

namespace Bits

theorem toByte_replicate_false (count : Nat) : toByte (List.replicate count false) = 0 := by
  rw [toByte, List.replicate_append_replicate, List.take_replicate, Nat.min_eq_left (by omega)]
  rfl

theorem toBytes_replicate_false (count : Nat) :
    toBytes (List.replicate count false) = List.replicate (bytesFor count) 0 := by
  have hbytes : ∀ bytes count,
      takeBytes bytes (List.replicate count false) = List.replicate bytes 0 := by
    intro bytes
    induction bytes with
    | zero => exact fun _ => rfl
    | succ bytes ih =>
      intro count
      rw [takeBytes, toByte_replicate_false, List.drop_replicate, ih, List.replicate_succ]
  rw [toBytes, hbytes, List.length_replicate]

end Bits

theorem Field.quantize_zero {f : Field} (hf : f.Valid) : f.quantize (.zero false) = .ok 0 := by
  have hscale : 0 < f.scale.toNat := by
    have hne : f.scale.toNat ≠ 0 := fun hzero => hf.scale_ne (UInt32.toNat_inj.1 hzero)
    omega
  have hnear : (Binary64.zero false).Near ((0 : Int) < 0) ((0 : Int).natAbs / f.scale.toNat) := by
    refine ⟨0, ⟨0, -1074, rfl, by simp⟩, by simp⟩
  have hround := Binary64.toIntRounded?_mul_of_near (by decide) hscale f.scale.toNat_lt hnear
  have hholds : f.holds 0 = true := by
    rw [Layout.holds_iff_range, rawMin, rawMax]
    have hhalf := Int.pow_pos (n := 2) (by decide) (m := f.width - 1)
    have hfull := Int.pow_pos (n := 2) (by decide) (m := f.width)
    split <;> omega
  simp only [quantize, hround, hholds, if_true]

namespace Layout

theorem bitsOf_zero (fields : List Field) :
    bitsOf (fun _ => 0) fields = List.replicate (totalWidth fields) false := by
  induction fields with
  | nil => rfl
  | cons f rest ih =>
    have hbits : fieldBits (fun _ => 0) f = List.replicate f.width false := by
      rw [fieldBits, ite_self, Bits.ofInt_zero]
    rw [totalWidth_cons, ← List.replicate_append_replicate, ← ih, ← hbits]
    rfl

theorem packValues_zeros (l : Layout) :
    l.packValues (Assignment.zeros l) = .ok (List.replicate l.frameBytes 0) := by
  have hnames : ∀ pair ∈ Assignment.zeros l ++ [], l.Reportable pair.1 :=
    Assignment.reportable_zeros_append (by simp)
  rw [List.append_nil] at hnames
  have hraw : ∀ f ∈ l.fields, f.reserved = false →
      (Cargo.engineering (Assignment.zeros l)).rawOf f = .ok 0 := by
    intro f hf hreserved
    have hreported : f ∈ l.reported := List.mem_filter.2 ⟨hf, by simp [hreserved]⟩
    rw [Cargo.rawOf, Assignment.lastValue?_zeros hreported]
    exact Field.quantize_zero (l.fields_valid f hf)
  rw [packValues_of_reportable hnames, packRaw, writeFields_eq_ok hraw, bitsOf_zero]
  show Except.ok (Bits.toBytes (List.replicate l.frameBits false)) = _
  rw [Bits.toBytes_replicate_false]
  rfl

end Layout

/-! ## The command -/

namespace CommandLine

open Assignment (Assigns Refuses zeros)
open Layout (LastListed)

variable {l : Layout} {texts : List String}

/-! ### What is put out -/

/-- Two digits for every byte of a frame, that of its high half first. -/
def spelled (frame : Bytes) : List Char :=
  frame.flatMap fun b => [Nat.digitChar (b.toNat / 16), Nat.digitChar (b.toNat % 16)]

/-- What becomes of a frame that has been made. Without a target it is printed. With one it is sent
as it is, if a socket can be had and the network takes it. -/
inductive Host.Emits (h : Host) (frame : Bytes) :
    Bool → Option Address → Except Failure Outcome → Prop
  | printed : Emits h frame false none (.ok (.finished [(0, String.ofList (spelled frame) ++ "\n")]))
  | json : Emits h frame true none (.ok (.finished [(0, "\x7b\"frame\":\"" ++
      String.ofList (spelled frame) ++ "\",\"len\":" ++ toString frame.length ++ "\x7d" ++ "\n")]))
  | sent {json : Bool} {target : Address} (hbind : h.network.bind (.v4 ⟨0, 0, 0, 0⟩ 0) = .ok ())
      (hsend : h.network.send target frame = .ok ()) :
      Emits h frame json (some target) (.ok (.sent target frame))
  | unbound {json : Bool} {target : Address} {e : SystemError}
      (hbind : h.network.bind (.v4 ⟨0, 0, 0, 0⟩ 0) = .error e) :
      Emits h frame json (some target) (.error ⟨e.message, []⟩)
  | unsent {json : Bool} {target : Address} {e : SystemError}
      (hbind : h.network.bind (.v4 ⟨0, 0, 0, 0⟩ 0) = .ok ())
      (hsend : h.network.send target frame = .error e) :
      Emits h frame json (some target)
        (.error ⟨"failed to send frame to " ++ target.text, [e.message]⟩)

theorem Host.Emits.unique {h : Host} {frame : Bytes} {json : Bool} {target : Option Address}
    {result other : Except Failure Outcome} (hresult : h.Emits frame json target result)
    (hother : h.Emits frame json target other) : result = other := by
  cases hresult with
  | printed =>
    cases hother
    rfl
  | json =>
    cases hother
    rfl
  | sent hbind hsend =>
    cases hother with
    | sent => rfl
    | unbound hnot => cases hbind.symm.trans hnot
    | unsent _ hnot => cases hsend.symm.trans hnot
  | unbound hbind =>
    cases hother with
    | sent hnot => cases hbind.symm.trans hnot
    | unbound hsame =>
      cases hbind.symm.trans hsame
      rfl
    | unsent hnot => cases hbind.symm.trans hnot
  | unsent hbind hsend =>
    cases hother with
    | sent _ hnot => cases hsend.symm.trans hnot
    | unbound hnot => cases hbind.symm.trans hnot
    | unsent _ hsame =>
      cases hsend.symm.trans hsame
      rfl

theorem encode_eq_spelled (frame : Bytes) : Hex.encode frame = String.ofList (spelled frame) := by
  have hbyte : ∀ b ∈ frame, Hex.ofByte b =
      [Nat.digitChar (b.toNat / 16), Nat.digitChar (b.toNat % 16)] := by
    intro b _
    have hlt : b.toNat / 16 < 16 := by
      have hbyte := b.toNat_lt
      omega
    rw [Hex.ofByte, Hex.digit, Hex.digit, Nat.mod_eq_of_lt hlt]
  rw [Hex.encode, spelled, List.flatMap_congr hbyte]

theorem escape_of_mem_spelled {frame : Bytes} {c : Char} (h : c ∈ spelled frame) :
    Json.escape c = [c] := by
  have hdigit : ∀ n < 16, Json.escape (Nat.digitChar n) = [Nat.digitChar n] := by decide
  obtain ⟨b, -, hc⟩ := List.mem_flatMap.1 h
  have hbyte := b.toNat_lt
  rcases List.mem_pair.1 hc with rfl | rfl
  · exact hdigit _ (by omega)
  · exact hdigit _ (by omega)

theorem Host.frameText_plain (frame : Bytes) :
    frameText false frame = String.ofList (spelled frame) :=
  encode_eq_spelled frame

theorem Host.frameText_json (frame : Bytes) :
    frameText true frame = "\x7b\"frame\":\"" ++ String.ofList (spelled frame) ++
      "\",\"len\":" ++ toString frame.length ++ "\x7d" := by
  have hdigits : Json.quote (String.ofList (spelled frame)) =
      "\"" ++ String.ofList (spelled frame) ++ "\"" :=
    Json.quote_of_plain fun _ => escape_of_mem_spelled
  have hframe : Json.quote "frame" = "\"frame\"" := by decide
  have hlen : Json.quote "len" = "\"len\"" := by decide
  have hlength : toString (frame.length : Int) = toString frame.length := rfl
  simp only [frameText, encode_eq_spelled, if_true, Json.text, Json.memberTexts, hdigits, hframe,
    hlen, hlength]
  rw [← String.toList_inj]
  simp

section Encode

variable {frame : Bytes} {error : AssignmentError}

theorem Host.encode_none_of_ok (h : Host) (c : Config) (json : Bool)
    (hframe : Assignment.frame l c.markers texts = .ok frame) :
    h.encode c l json texts none = .ok (.printed [unlines [frameText json frame]]) := by
  rw [encode, hframe]
  rfl

theorem Host.encode_some_of_ok (h : Host) (c : Config) (json : Bool) (target : Address)
    (hframe : Assignment.frame l c.markers texts = .ok frame) :
    h.encode c l json texts (some target) =
      ((h.network.bind .unspecified).mapError .ofRefusal).bind fun _ =>
        ((h.network.send target frame).mapError
          (.ofSystem ("failed to send frame to " ++ target.text))).bind fun _ =>
            .ok (.sent target frame) := by
  rw [encode, hframe]
  rfl

theorem Host.emits_encode (h : Host) (c : Config) (json : Bool) (target : Option Address)
    (hframe : Assignment.frame l c.markers texts = .ok frame) :
    h.Emits frame json target (h.encode c l json texts target) := by
  cases target with
  | none =>
    rw [h.encode_none_of_ok c json hframe]
    cases json with
    | false =>
      rw [frameText_plain]
      exact .printed
    | true =>
      rw [frameText_json]
      exact .json
  | some target =>
    rw [h.encode_some_of_ok c json target hframe, Address.unspecified]
    cases hbind : h.network.bind (.v4 ⟨0, 0, 0, 0⟩ 0) with
    | error e => exact .unbound hbind
    | ok _ =>
      cases hsend : h.network.send target frame with
      | error e => exact .unsent hbind hsend
      | ok _ => exact .sent hbind hsend

theorem Host.encode_of_error (h : Host) (c : Config) (json : Bool) (target : Option Address)
    (hframe : Assignment.frame l c.markers texts = .error error) :
    h.encode c l json texts target = .error (.ofAssignment error) := by
  rw [encode, hframe]
  rfl

end Encode

/-! ### The outcome -/

/-- What becomes of texts. A frame is made or not made; it is put out if it is made. -/
structure Encodes (l : Layout) (m : Markers) (texts : List String)
    (emits : Bytes → Except Failure Outcome → Prop) (result : Except Failure Outcome) : Prop where
  /-- Either all texts are assignments, or there is a first one that is not. -/
  exhaustive : (∃ pairs, List.Forall₂ (Assigns l) texts pairs) ∨
    ∃ before text behind pairs error, texts = before ++ text :: behind ∧
      List.Forall₂ (Assigns l) before pairs ∧ Refuses l text error
  /-- The first text that is not an assignment is reported, and nothing is put out. -/
  refused : ∀ before text behind pairs error, texts = before ++ text :: behind →
    List.Forall₂ (Assigns l) before pairs → Refuses l text error →
    result = .error (.ofAssignment error)
  /-- Otherwise the frame is that of the zeros with the assignments behind them. -/
  packed : ∀ pairs payload, List.Forall₂ (Assigns l) texts pairs →
    l.packValues (zeros l ++ pairs) = .ok payload → emits (m.frame payload) result
  /-- Nothing is put out if it cannot be packed, and this is only because of a value. -/
  outOfRange : ∀ pairs cause, List.Forall₂ (Assigns l) texts pairs →
    l.packValues (zeros l ++ pairs) = .error cause →
    result = .error (.ofAssignment (.notPacked cause)) ∧
      ∃ f ∈ l.reported, ∃ value, LastListed (zeros l ++ pairs) f.name value ∧
        cause = .valueOutOfRange f.name value (f.engineering f.rawMin) (f.engineering f.rawMax)
  /-- The last assignment to a field counts, and zero if there is none. -/
  last : ∀ (pairs : List (String × Binary64)), ∀ f ∈ l.reported, ∀ x,
    LastListed (zeros l ++ pairs) f.name x ↔
      LastListed pairs f.name x ∨ (∀ pair ∈ pairs, pair.1 ≠ f.name) ∧ x = .zero false
  /-- Without assignments there is always a frame, of zeros. -/
  empty : texts = [] → emits (m.frame (List.replicate l.frameBytes 0)) result

/-- **A frame is made of assignments as of the zeros with the assignments behind them, and its bytes
are printed or sent,** or the first text that is not an assignment is reported, whatever is
configured. -/
theorem Host.encode_assigned (h : Host) (c : Config) (l : Layout) (json : Bool)
    (texts : List String) (target : Option Address) :
    Encodes l c.markers texts (fun frame => h.Emits frame json target)
        (h.encode c l json texts target) ∧
      ∀ i : Invocation, i.command = .encode texts target → i.json = json →
        h.config i.configPath = .ok (c, l) → h.perform i = h.encode c l json texts target := by
  have hassigned : ∀ {pairs}, List.Forall₂ (Assigns l) texts pairs →
      Assignment.frame l c.markers texts =
        ((l.packValues (zeros l ++ pairs)).mapError .notPacked).map c.markers.frame := by
    intro pairs hpairs
    rw [Assignment.frame, Assignment.payload_of_assigns hpairs]
  refine ⟨⟨Assignment.all_assign_or_first_refused l texts, ?_, ?_, ?_, ?_, ?_⟩, ?_⟩
  · rintro before text behind pairs error rfl hbefore hrefuses
    apply h.encode_of_error
    rw [Assignment.frame, Assignment.payload_of_refuses hbefore hrefuses]
    rfl
  · intro pairs payload hpairs hpacked
    apply h.emits_encode
    rw [hassigned hpairs, hpacked]
    rfl
  · intro pairs cause hpairs hpacked
    refine ⟨?_, Assignment.valueOutOfRange_of_packValues
      (Assignment.reportable_of_assigns hpairs) hpacked⟩
    apply h.encode_of_error
    rw [hassigned hpairs, hpacked]
    rfl
  · exact fun pairs f hf x => Assignment.lastListed_zeros_append_iff hf
  · rintro rfl
    apply h.emits_encode
    rw [hassigned .nil, List.append_nil, Layout.packValues_zeros]
    rfl
  · rintro i hcommand rfl hconfig
    rw [perform, hconfig]
    simp only [bind, Except.bind, hcommand]

/-- A host whose network takes everything. -/
def online : Host :=
  ⟨⟨fun _ => .error .notFound, fun _ => .error .notFound⟩, ⟨fun _ => .ok (), fun _ _ => .ok ()⟩,
    none⟩

theorem assigns_octet {text : String} {x : Binary64} (name value : String)
    (hsplits : Assignment.Splits text name value) (hname : Text.trim name = "level")
    (hnumber : Binary64.ofText? (Text.trim value) = .ok x) :
    Assigns .octet text ("level", x) :=
  ⟨name, value, hsplits, hname, hnumber, .unsigned "level" 8, List.mem_cons_self, rfl, rfl⟩

/-- The last of two numbers for one field counts; the frame is sent, or printed in digits. -/
theorem encode_assigned_octet :
    let texts := ["level=200", " level = 7"]
    online.encode .flight .octet false texts (some (.loopback 40868)) =
        .ok (.sent (.loopback 40868) [0x5e, 0xd5, 7, 0x0d, 0x0a]) ∧
      online.encode .flight .octet false texts none =
        .ok (.finished [(0, "5ed5070d0a\n")]) ∧
      online.encode .flight .octet true texts none =
        .ok (.finished [(0, "\x7b\"frame\":\"5ed5070d0a\",\"len\":5\x7d\n")]) := by
  intro texts
  have hassigns : List.Forall₂ (Assigns .octet) texts
      [("level", .ofNat 200), ("level", .ofNat 7)] := by
    refine .cons (assigns_octet "level" "200" ?_ ?_ ?_)
      (.cons (assigns_octet " level " " 7" ?_ ?_ ?_) .nil)
    · exact ⟨by decide, by decide⟩
    · decide
    · decide +kernel
    · exact ⟨by decide, by decide⟩
    · decide
    · decide +kernel
  have hpacked : Layout.packValues .octet
      (zeros .octet ++ [("level", .ofNat 200), ("level", .ofNat 7)]) = .ok [7] := by
    decide +kernel
  have hemits : ∀ json target, online.Emits [0x5e, 0xd5, 7, 0x0d, 0x0a] json target
      (online.encode .flight .octet json texts target) := by
    intro json target
    exact (online.encode_assigned .flight .octet json texts target).1.packed _ _ hassigns hpacked
  have hdigits : String.ofList (spelled [0x5e, 0xd5, 7, 0x0d, 0x0a]) = "5ed5070d0a" := by decide
  refine ⟨(hemits false _).unique (.sent rfl rfl), ?_, ?_⟩
  · rw [(hemits false none).unique .printed, hdigits]
    rfl
  · rw [(hemits true none).unique .json, hdigits]
    rfl

end CommandLine

end Downlink
