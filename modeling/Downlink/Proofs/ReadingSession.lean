import Downlink.Proofs.BitPlaces

/-!
# Sessions of a reader

A reader may be asked for one integer after another, of any width and with or without a sign, also
for more bits than there are. Each answer is told by the bytes and by the place of the reader alone
(`Turn.Right`): it is the integer that the bits spell one by one from there on, or a refusal, after
which the reader stands where it stood. Since a refusal moves nothing, a session without some of its
refused queries goes as before (`session_of_sublist`).

All of this holds as well of the reader that takes as many bits of each byte as are left in it, and
none of the conditions on its way fails (`Checked.session_eq`).
-/

namespace Downlink

namespace BitReader

/-- What a reader is asked for. The field's name is for the message. -/
structure Query where
  field : String
  signed : Bool
  width : Nat
deriving DecidableEq, Repr

/-- A query as a field, which need not be valid. -/
def Query.toField (q : Query) : Field :=
  ⟨q.field, q.width, q.signed, 1, false⟩

/-- A query with its answer, and the places of the reader in front of it and behind it. -/
structure Turn where
  query : Query
  place : Nat
  answer : Except FieldError Int
  next : Nat

/-- Whether the query got an integer. -/
def Turn.isOk (t : Turn) : Bool :=
  t.answer.isOk

/-- Reads the integer that a query asks for. -/
def readFor (r : BitReader) (q : Query) : Except FieldError (Int × BitReader) :=
  if q.signed then r.readSigned q.field q.width
  else (r.readUnsigned q.field q.width).map fun (n, r) => ((n : Int), r)

/-- One turn, and the reader after it: the one before it if the query was refused. -/
def ask (r : BitReader) (q : Query) : Turn × BitReader :=
  match r.readFor q with
  | .ok (raw, r') => (⟨q, r.position, .ok raw, r'.position⟩, r')
  | .error refusal => (⟨q, r.position, .error refusal, r.position⟩, r)

/-- The turns of a reader that is asked one query after another. -/
def session (r : BitReader) : List Query → List Turn
  | [] => []
  | q :: rest => (r.ask q).1 :: session (r.ask q).2 rest

end BitReader

namespace Checked

open BitReader (Query Turn)

/-- Reads the integer that a query asks for, a byte at a time. -/
def readFor (bytes : Bytes) (place : Nat) (q : Query) : Reading (Int × Nat) := do
  let (word, next) ← readUnsigned bytes place q.field q.width
  let raw ← rawOfWord q.toField word
  return (raw, next)

/-- The turns of a session that reads a byte at a time; none if a condition was not met. -/
def session (bytes : Bytes) (place : Nat) : List Query → Option (List Turn)
  | [] => some []
  | q :: rest => do
    match ← (readFor bytes place q).run with
    | .ok (raw, next) => return ⟨q, place, .ok raw, next⟩ :: (← session bytes next rest)
    | .error refusal => return ⟨q, place, .error refusal, place⟩ :: (← session bytes place rest)

end Checked

namespace BitReader

/-- Turns of one reader: each begins at the place where the one before it ended. -/
def Follow (place : Nat) : List Turn → Prop
  | [] => True
  | t :: rest => t.place = place ∧ Follow t.next rest

/-- A turn is the one that the bits from its place on ask for. -/
structure Turn.Right (bytes : Bytes) (t : Turn) : Prop where
  /-- A width is refused if it is none of a word's. -/
  invalidWidth : ∀ field width, t.answer = .error (.invalidWidth field width) ↔
    (t.query.width = 0 ∨ 64 < t.query.width) ∧ field = t.query.field ∧ width = t.query.width
  /-- Any other width is refused if it reaches behind the end. -/
  insufficientBits : ∀ field needed remaining offset,
    t.answer = .error (.insufficientBits field needed remaining offset) ↔
      (1 ≤ t.query.width ∧ t.query.width ≤ 64) ∧
        8 * bytes.length < t.place + t.query.width ∧ field = t.query.field ∧
        needed = t.query.width ∧ remaining = 8 * bytes.length - t.place ∧ offset = t.place
  /-- If it does not, there is an integer. -/
  answered : 1 ≤ t.query.width → t.query.width ≤ 64 →
    t.place + t.query.width ≤ 8 * bytes.length → ∃ raw, t.answer = .ok raw
  /-- It is the one that the bits spell. -/
  ok : ∀ raw, t.answer = .ok raw ↔
    (1 ≤ t.query.width ∧ t.query.width ≤ 64) ∧ t.place + t.query.width ≤ 8 * bytes.length ∧
      Spells t.query.signed t.query.width (bytes.natAt t.place t.query.width) raw
  /-- The reader moves behind the bits that it read, and not at all for a refusal. -/
  next : t.next = if t.isOk then t.place + t.query.width else t.place
  /-- It stays within the bytes. -/
  inside : t.place ≤ 8 * bytes.length ∧ t.next ≤ 8 * bytes.length

variable {r : BitReader} {bytes : Bytes} {q : Query}

/-! ## One query -/

theorem readFor_eq_readRaw (r : BitReader) (q : Query) : r.readFor q = q.toField.readRaw r := rfl

theorem Query.valid_toField (h : 1 ≤ q.width ∧ q.width ≤ 64) : q.toField.Valid where
  width_pos := h.1
  width_le := h.2
  scale_ne := by
    show (1 : UInt32) ≠ 0
    decide

theorem add_remaining_of_bits (hbits : r.bits = Bits.ofBytes bytes) :
    r.position + r.remaining = 8 * bytes.length := by
  have hend := r.position_le
  rw [hbits, Bits.length_ofBytes] at hend
  rw [remaining, hbits, Bits.length_ofBytes]
  omega

theorem readFor_of_invalid (r : BitReader) (h : q.width = 0 ∨ 64 < q.width) :
    r.readFor q = .error (.invalidWidth q.field q.width) := by
  have hread : r.read q.field q.width = .error (.invalidWidth q.field q.width) := if_pos h
  rw [readFor, readSigned, readUnsigned, hread]
  cases q.signed <;> rfl

theorem readFor_cases (hbits : r.bits = Bits.ofBytes bytes) (q : Query) :
    ((q.width = 0 ∨ 64 < q.width) ∧ r.readFor q = .error (.invalidWidth q.field q.width)) ∨
    ((1 ≤ q.width ∧ q.width ≤ 64) ∧ 8 * bytes.length < r.position + q.width ∧
      r.readFor q = .error (.insufficientBits q.field q.width (8 * bytes.length - r.position)
        r.position)) ∨
    ((1 ≤ q.width ∧ q.width ≤ 64) ∧ r.position + q.width ≤ 8 * bytes.length ∧
      ∃ raw r', r.readFor q = .ok (raw, r') ∧ r'.bits = r.bits ∧
        r'.position = r.position + q.width ∧
        ∀ n, Spells q.signed q.width (bytes.natAt r.position q.width) n ↔ n = raw) := by
  have hremaining := add_remaining_of_bits hbits
  by_cases hwidth : q.width = 0 ∨ 64 < q.width
  · exact .inl ⟨hwidth, readFor_of_invalid r hwidth⟩
  · have hvalid : 1 ≤ q.width ∧ q.width ≤ 64 := by omega
    have hfield := Query.valid_toField hvalid
    by_cases hfits : q.width ≤ r.remaining
    · have hinside : r.position + q.width ≤ 8 * bytes.length := by omega
      have hspells := Field.spells_iff hfield hinside
      rw [← hbits] at hspells
      exact .inr (.inr ⟨hvalid, hinside, _, r.skip q.width hfits,
        Field.readRaw_of_le hfield hfits, rfl, rfl, hspells⟩)
    · refine .inr (.inl ⟨hvalid, by omega, ?_⟩)
      have hshort : 8 * bytes.length - r.position = r.remaining := by omega
      rw [hshort]
      exact Field.readRaw_of_lt hfield (Nat.lt_of_not_le hfits)

theorem right_of_invalidWidth {place : Nat} (hwidth : q.width = 0 ∨ 64 < q.width)
    (hplace : place ≤ 8 * bytes.length) :
    Turn.Right bytes ⟨q, place, .error (.invalidWidth q.field q.width), place⟩ where
  invalidWidth := by
    intro field width
    simp only [Except.error.injEq, FieldError.invalidWidth.injEq]
    exact ⟨fun h => ⟨hwidth, h.1.symm, h.2.symm⟩, fun h => ⟨h.2.1.symm, h.2.2.symm⟩⟩
  insufficientBits := by
    intro field needed remaining offset
    refine iff_of_false (by simp) ?_
    rintro ⟨hvalid, -⟩
    simp only at hvalid
    omega
  answered := by
    intro hpos hmax
    simp only at hpos hmax
    omega
  ok := by
    intro raw
    refine iff_of_false (by simp) ?_
    rintro ⟨hvalid, -⟩
    simp only at hvalid
    omega
  next := rfl
  inside := ⟨hplace, hplace⟩

theorem right_of_insufficientBits {place : Nat} (hvalid : 1 ≤ q.width ∧ q.width ≤ 64)
    (hplace : place ≤ 8 * bytes.length) (hover : 8 * bytes.length < place + q.width) :
    Turn.Right bytes ⟨q, place,
      .error (.insufficientBits q.field q.width (8 * bytes.length - place) place), place⟩ where
  invalidWidth := by
    intro field width
    refine iff_of_false (by simp) ?_
    rintro ⟨hwidth, -⟩
    simp only at hwidth
    omega
  insufficientBits := by
    intro field needed remaining offset
    simp only [Except.error.injEq, FieldError.insufficientBits.injEq]
    constructor
    · rintro ⟨rfl, rfl, rfl, rfl⟩
      exact ⟨hvalid, hover, rfl, rfl, rfl, rfl⟩
    · rintro ⟨-, -, rfl, rfl, rfl, rfl⟩
      exact ⟨rfl, rfl, rfl, rfl⟩
  answered := by
    intro _ _ hinside
    exact absurd hinside (Nat.not_le.2 hover)
  ok := by
    intro raw
    refine iff_of_false (by simp) ?_
    rintro ⟨-, hinside, -⟩
    exact absurd hinside (Nat.not_le.2 hover)
  next := rfl
  inside := ⟨hplace, hplace⟩

theorem right_of_ok {place : Nat} {raw : Int} (hvalid : 1 ≤ q.width ∧ q.width ≤ 64)
    (hinside : place + q.width ≤ 8 * bytes.length)
    (hspells : ∀ n, Spells q.signed q.width (bytes.natAt place q.width) n ↔ n = raw) :
    Turn.Right bytes ⟨q, place, .ok raw, place + q.width⟩ where
  invalidWidth := by
    intro field width
    refine iff_of_false (by simp) ?_
    rintro ⟨hwidth, -⟩
    simp only at hwidth
    omega
  insufficientBits := by
    intro field needed remaining offset
    refine iff_of_false (by simp) ?_
    rintro ⟨-, hover, -⟩
    exact absurd hinside (Nat.not_le.2 hover)
  answered := fun _ _ _ => ⟨raw, rfl⟩
  ok := by
    intro n
    simp only [Except.ok.injEq]
    rw [hspells n]
    exact ⟨fun h => ⟨hvalid, hinside, h.symm⟩, fun h => h.2.2.symm⟩
  next := rfl
  inside := ⟨Nat.le_of_add_right_le hinside, hinside⟩

@[simp] theorem query_ask (r : BitReader) (q : Query) : (r.ask q).1.query = q := by
  rw [ask]
  cases r.readFor q <;> rfl

/-- **One turn is right**, and the next one begins where it ends. -/
theorem ask_right (hbits : r.bits = Bits.ofBytes bytes) (q : Query) :
    (r.ask q).1.Right bytes ∧ (r.ask q).1.query = q ∧ (r.ask q).1.place = r.position ∧
      (r.ask q).2.bits = Bits.ofBytes bytes ∧ (r.ask q).2.position = (r.ask q).1.next := by
  have hplace : r.position ≤ 8 * bytes.length := Nat.le.intro (add_remaining_of_bits hbits)
  rcases readFor_cases hbits q with ⟨hwidth, hread⟩ | ⟨hvalid, hover, hread⟩ |
    ⟨hvalid, hinside, raw, r', hread, hbits', hposition, hspells⟩
  · rw [ask, hread]
    exact ⟨right_of_invalidWidth hwidth hplace, rfl, rfl, hbits, rfl⟩
  · rw [ask, hread]
    exact ⟨right_of_insufficientBits hvalid hplace hover, rfl, rfl, hbits, rfl⟩
  · have hright := right_of_ok hvalid hinside hspells
    rw [← hposition] at hright
    rw [ask, hread]
    exact ⟨hright, rfl, rfl, hbits'.trans hbits, rfl⟩

theorem ask_of_not_isOk (h : (r.ask q).1.isOk = false) : (r.ask q).2 = r := by
  rw [ask] at h ⊢
  cases hread : r.readFor q with
  | error refusal => rfl
  | ok read =>
    rw [hread] at h
    cases h

/-! ## Sessions -/

theorem session_right (hbits : r.bits = Bits.ofBytes bytes) (queries : List Query) :
    (r.session queries).map Turn.query = queries ∧ Follow r.position (r.session queries) ∧
      ∀ t ∈ r.session queries, t.Right bytes := by
  induction queries generalizing r with
  | nil => exact ⟨rfl, trivial, fun t ht => by cases ht⟩
  | cons q rest ih =>
    obtain ⟨hright, hquery, hplace, hbits', hnext⟩ := ask_right hbits q
    obtain ⟨hqueries, hfollow, hrights⟩ := ih hbits'
    rw [hnext] at hfollow
    refine ⟨?_, ⟨hplace, hfollow⟩, List.forall_mem_cons.2 ⟨hright, hrights⟩⟩
    rw [session, List.map_cons, hquery, hqueries]

/-- **A session goes on as before if queries that were refused are left out.** -/
theorem session_of_sublist {queries : List Query} {kept : List Turn}
    (hkept : kept.Sublist (r.session queries))
    (hok : kept.filter Turn.isOk = (r.session queries).filter Turn.isOk) :
    r.session (kept.map Turn.query) = kept := by
  -- Along the queries. One that is left out was refused, so the reader is the same without it.
  induction queries generalizing r kept with
  | nil =>
    obtain rfl := List.eq_nil_of_sublist_nil hkept
    rfl
  | cons q rest ih =>
    rw [session] at hkept hok
    rcases List.sublist_cons_iff.1 hkept with hwithout | ⟨others, rfl, hothers⟩
    · have hrefused : (r.ask q).1.isOk = false := by
        cases hanswer : (r.ask q).1.isOk with
        | false => rfl
        | true =>
          rw [List.filter_cons_of_pos hanswer] at hok
          have hshorter := (hwithout.filter Turn.isOk).length_le
          rw [hok, List.length_cons] at hshorter
          omega
      have hsame := ask_of_not_isOk hrefused
      rw [hsame] at hwithout
      rw [List.filter_cons_of_neg (by simp [hrefused]), hsame] at hok
      exact ih hwithout hok
    · have hquery : (r.ask q).1.query = q := query_ask r q
      rw [List.map_cons, hquery, session, ih hothers]
      rw [List.filter_cons, List.filter_cons] at hok
      split at hok
      · exact (List.cons.inj hok).2
      · exact hok

end BitReader

/-! ## Sessions byte by byte -/

namespace Checked

open BitReader (Query Turn)

variable {r : BitReader} {bytes : Bytes}

theorem run_readUnsigned_of_invalid (bytes : Bytes) (place : Nat) {q : Query}
    (h : q.width = 0 ∨ 64 < q.width) : (readUnsigned bytes place q.field q.width).run =
      some (.error (.invalidWidth q.field q.width)) := by
  have hthrow : readUnsigned bytes place q.field q.width = throw (.invalidWidth q.field q.width) :=
    if_pos h
  rw [hthrow]
  rfl

/-- **Reading byte by byte answers a query as the reader does.** -/
theorem readFor_eq (hbits : r.bits = Bits.ofBytes bytes) (q : Query) :
    (readFor bytes r.position q).run =
      some ((r.readFor q).map fun (raw, r) => (raw, r.position)) := by
  have hend := BitReader.add_remaining_of_bits hbits
  by_cases hwidth : q.width = 0 ∨ 64 < q.width
  · rw [readFor, run_bind_of_error (run_readUnsigned_of_invalid bytes r.position hwidth),
      BitReader.readFor_of_invalid r hwidth]
    rfl
  · have hfield : q.toField.Valid := Query.valid_toField (by omega)
    rw [BitReader.readFor_eq_readRaw]
    by_cases hfits : q.width ≤ r.remaining
    · have hinside : r.position + q.width ≤ 8 * bytes.length := by omega
      obtain ⟨word, hread, hword⟩ : ∃ word, (readUnsigned bytes r.position q.field q.width).run =
          some (.ok (word, r.position + q.width)) ∧
          word.toNat = Bits.toNat (((Bits.ofBytes bytes).drop r.position).take q.width) :=
        readUnsigned_of_le hfield hinside
      have hlength : (((Bits.ofBytes bytes).drop r.position).take q.width).length = q.width := by
        rw [List.length_take, List.length_drop, Bits.length_ofBytes]
        omega
      rw [readFor, run_bind_of_ok hread, Field.readRaw_of_le hfield hfits, hbits]
      simp only [rawOfWord_eq hfield hword hlength]
      rfl
    · have hread : (readUnsigned bytes r.position q.field q.width).run =
          some (.error (.insufficientBits q.field q.width (8 * bytes.length - r.position)
            r.position)) :=
        readUnsigned_of_lt hfield (by omega) (show _ < q.width by omega)
      have hremaining : 8 * bytes.length - r.position = r.remaining := by omega
      rw [readFor, run_bind_of_error hread, Field.readRaw_of_lt hfield (Nat.lt_of_not_le hfits),
        hremaining]
      rfl

/-- **A session that reads byte by byte meets every condition, and goes as the reader's.** -/
theorem session_eq (hbits : r.bits = Bits.ofBytes bytes) (queries : List Query) :
    session bytes r.position queries = some (r.session queries) := by
  induction queries generalizing r with
  | nil => rfl
  | cons q rest ih =>
    obtain ⟨-, -, -, hbits', -⟩ := BitReader.ask_right hbits q
    have hrest := ih hbits'
    rw [session, readFor_eq hbits, BitReader.session]
    rw [BitReader.ask] at hrest ⊢
    cases hread : r.readFor q with
    | error refusal =>
      rw [hread] at hrest
      simp only [Except.map, bind, Option.bind, hrest]
      rfl
    | ok read =>
      rw [hread] at hrest
      simp only [Except.map, bind, Option.bind, hrest]
      rfl

end Checked

/-! ## What a session tells -/

namespace BitReader

/-- **A session is told by the bytes alone.** Whatever a reader is asked for, of whatever bytes, each
turn is the right one at its place, and each begins where the one before it ended. Reading byte by
byte meets all of its conditions and gives the same turns, and it still does so without any of the
queries that were refused. -/
theorem session_tells (bytes : Bytes) (queries : List Query) :
    ∃ turns, (ofBytes bytes).session queries = turns ∧
      Checked.session bytes 0 queries = some turns ∧
      turns.map Turn.query = queries ∧ Follow 0 turns ∧ (∀ t ∈ turns, t.Right bytes) ∧
      ∀ kept : List Turn, kept.Sublist turns → kept.filter Turn.isOk = turns.filter Turn.isOk →
        Checked.session bytes 0 (kept.map Turn.query) = some kept := by
  have hbits : (ofBytes bytes).bits = Bits.ofBytes bytes := rfl
  obtain ⟨hqueries, hfollow, hright⟩ := session_right hbits queries
  refine ⟨_, rfl, Checked.session_eq hbits queries, hqueries, hfollow, hright, ?_⟩
  intro kept hkept hok
  have hsession := Checked.session_eq hbits (kept.map Turn.query)
  rw [session_of_sublist hkept hok] at hsession
  exact hsession

/-- Three queries of two bytes: one over the end of a byte, one over the end of all, and one for the
bits that are left. -/
def overlong : List Query :=
  [⟨"head", false, 5⟩, ⟨"none", false, 0⟩, ⟨"tail", true, 12⟩, ⟨"tail", true, 11⟩]

example : Checked.session [0x0f, 0xc5] 0 overlong =
    some [⟨⟨"head", false, 5⟩, 0, .ok 1, 5⟩,
      ⟨⟨"none", false, 0⟩, 5, .error (.invalidWidth "none" 0), 5⟩,
      ⟨⟨"tail", true, 12⟩, 5, .error (.insufficientBits "tail" 12 11 5), 5⟩,
      ⟨⟨"tail", true, 11⟩, 5, .ok (-59), 16⟩] := by
  cbv

end BitReader

end Downlink
