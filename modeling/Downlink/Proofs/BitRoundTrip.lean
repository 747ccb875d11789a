import Downlink.Proofs.BitWriting
import Downlink.Proofs.ReadingSession

/-!
# Writing and reading are inverse

What a writer wrote is read again, integer by integer, as far as the widths keep it: up to a
multiple of the modulus, and exactly if it is in range (`BitReader.readAll_of_drop`). And any bytes
that are read to their last bit are written again from what was read. Both hold of the writer that
sets single bits and of the reader that takes as many bits of each byte as are left in it
(`Checked.readAll_writeAll`).
-/

namespace Downlink

/-! ## Low bits of any integer -/

namespace Bits

theorem toNat_ofInt_eq (width : Nat) (n : Int) : ((ofInt width n).toNat : Int) = n % 2 ^ width := by
  have hcast := natCast_two_pow width
  have hnonneg : 0 ≤ n % 2 ^ width := Int.emod_nonneg n (by have := Nat.two_pow_pos width; omega)
  have hlt : n % 2 ^ width < 2 ^ width :=
    Int.emod_lt_of_pos n (by have := Nat.two_pow_pos width; omega)
  rw [ofInt, toNat_ofNat, Nat.mod_eq_of_lt (by omega), Int.toNat_of_nonneg hnonneg]

theorem toInt_ofInt_eq {width : Nat} (h : 1 ≤ width) (n : Int) :
    (ofInt width n).toInt = n.bmod (2 ^ width) := by
  have hpos : 1 ≤ (ofInt width n).length := by
    rw [length_ofInt]
    exact h
  obtain ⟨hmin, hmax⟩ := toInt_bounds hpos
  obtain ⟨k, hk⟩ := exists_toInt_eq (ofInt width n)
  rw [length_ofInt] at hmin hmax hk
  have hraw : (ofInt width n).toInt = ((ofInt width n).toNat : Int).bmod (2 ^ width) :=
    eq_bmod_of_dvd h hmin hmax ⟨k, by omega⟩
  rw [hraw, toNat_ofInt_eq, ← natCast_two_pow, Int.emod_bmod]

theorem ofInt_emod (width : Nat) (n : Int) : ofInt width (n % 2 ^ width) = ofInt width n := by
  rw [ofInt, ofInt, Int.emod_emod]

theorem ofInt_bmod (width : Nat) (n : Int) : ofInt width (n.bmod (2 ^ width)) = ofInt width n := by
  rw [ofInt, ofInt, ← natCast_two_pow, Int.bmod_emod]

end Bits

/-! ## Reading to the end -/

namespace BitReader

/-- What a query makes of the low bits of an integer: its remainder or, with a sign, the one integer
of the range of two's complement that is congruent to it. -/
def Query.reading (q : Query) (n : Int) : Int :=
  if q.signed then n.bmod (2 ^ q.width) else n % 2 ^ q.width

/-- Reads one integer behind another, up to the first that is refused. -/
def readAll (r : BitReader) : List Query → Except FieldError (List Int × BitReader)
  | [] => .ok ([], r)
  | q :: rest => do
    let (n, r) ← r.readFor q
    let (ns, r) ← readAll r rest
    return (n :: ns, r)

end BitReader

namespace Checked

open BitReader (Query)

/-- Reads one integer behind another, a byte at a time. -/
def readAll (bytes : Bytes) (place : Nat) : List Query → Reading (List Int × Nat)
  | [] => return ([], place)
  | q :: rest => do
    let (n, place) ← readFor bytes place q
    let (ns, place) ← readAll bytes place rest
    return (n :: ns, place)

end Checked

namespace BitReader

open BitWriter (Push bitsOf)

variable {q : Query} {queries : List Query} {pushes : List Push} {r : BitReader} {more : Bits}

theorem rawOfBits_ofInt_eq (h : 1 ≤ q.width) (n : Int) :
    q.toField.rawOfBits (Bits.ofInt q.width n) = q.reading n := by
  rw [Field.rawOfBits, Query.reading, Query.toField]
  cases q.signed with
  | true => exact Bits.toInt_ofInt_eq h n
  | false => exact Bits.toNat_ofInt_eq q.width n

theorem ofInt_reading (q : Query) (n : Int) :
    Bits.ofInt q.width (q.reading n) = Bits.ofInt q.width n := by
  rw [Query.reading]
  cases q.signed with
  | true => exact Bits.ofInt_bmod q.width n
  | false => exact Bits.ofInt_emod q.width n

theorem reading_of_holds (hq : 1 ≤ q.width ∧ q.width ≤ 64) {n : Int}
    (h : q.toField.holds n = true) : q.reading n = n := by
  rw [← rawOfBits_ofInt_eq hq.1]
  exact Field.rawOfBits_ofInt (Query.valid_toField hq) h

/-- **Integers that are written from the place of a reader on are read one behind another.** -/
theorem readAll_of_drop (hqueries : ∀ q ∈ queries, 1 ≤ q.width ∧ q.width ≤ 64)
    (hwidths : queries.map Query.width = pushes.map Push.width)
    (hbits : r.bits.drop r.position = bitsOf pushes ++ more) :
    ∃ r', r.readAll queries = .ok (List.zipWith (fun q p => q.reading p.value) queries pushes, r') ∧
      r'.bits = r.bits ∧ r'.position = r.position + (bitsOf pushes).length := by
  induction queries generalizing r pushes with
  | nil =>
    obtain rfl : pushes = [] := by simpa using hwidths.symm
    exact ⟨r, rfl, rfl, rfl⟩
  | cons q rest ih =>
    obtain ⟨p, pushes, rfl⟩ : ∃ p others, pushes = p :: others := by
      cases pushes with
      | nil => cases hwidths
      | cons p others => exact ⟨p, others, rfl⟩
    obtain ⟨hwidth, hothers⟩ := List.cons.inj hwidths
    obtain ⟨hq, hrest⟩ := List.forall_mem_cons.1 hqueries
    have hcons : bitsOf (p :: pushes) = Bits.ofInt q.width p.value ++ bitsOf pushes := by
      rw [hwidth]
      rfl
    have hfirst : (Bits.ofInt q.width p.value).length = q.width := Bits.length_ofInt _ _
    rw [hcons, List.append_assoc] at hbits
    have hfits : q.width ≤ r.remaining := by
      have hlength := congrArg List.length hbits
      rw [List.length_drop, List.length_append, hfirst] at hlength
      rw [remaining]
      omega
    have hread : r.readFor q = .ok (q.reading p.value, r.skip q.width hfits) := by
      rw [readFor_eq_readRaw, Field.readRaw_of_le (Query.valid_toField hq) hfits]
      show Except.ok (q.toField.rawOfBits ((r.bits.drop r.position).take q.width), _) = _
      rw [hbits, List.take_left' hfirst, rawOfBits_ofInt_eq hq.1]
      rfl
    have hbehind : (r.skip q.width hfits).bits.drop (r.skip q.width hfits).position =
        bitsOf pushes ++ more := by
      rw [bits_skip, position_skip, ← List.drop_drop, hbits, List.drop_left' hfirst]
    obtain ⟨r', hall, hbits', hposition⟩ := ih hrest hothers hbehind
    refine ⟨r', ?_, hbits', ?_⟩
    · rw [readAll, hread]
      simp only [bind, Except.bind, hall]
      rfl
    · rw [hposition, position_skip, hcons, List.length_append, hfirst, Nat.add_assoc]

end BitReader

namespace Checked

open BitReader (Query)

/-- **Reading byte by byte meets every condition, and reads what the reader reads.** -/
theorem readAll_eq {r : BitReader} {bytes : Bytes} (hbits : r.bits = Bits.ofBytes bytes)
    (queries : List Query) :
    (readAll bytes r.position queries).run =
      some ((r.readAll queries).map fun (values, r) => (values, r.position)) := by
  induction queries generalizing r with
  | nil => rfl
  | cons q rest ih =>
    obtain ⟨-, -, -, hbits', -⟩ := BitReader.ask_right hbits q
    have hfirst := readFor_eq hbits q
    rw [BitReader.ask] at hbits'
    rw [readAll, BitReader.readAll]
    cases hread : r.readFor q with
    | error refusal =>
      rw [hread] at hfirst
      exact run_bind_of_error hfirst
    | ok read =>
      obtain ⟨n, s⟩ := read
      rw [hread] at hfirst hbits'
      have hrest := ih hbits'
      refine (run_bind_of_ok hfirst).trans ?_
      simp only [bind, Except.bind]
      cases hmore : s.readAll rest with
      | error refusal =>
        rw [hmore] at hrest
        exact run_bind_of_error hrest
      | ok others =>
        rw [hmore] at hrest
        exact run_bind_of_ok hrest

end Checked

/-! ## Both ways -/

namespace Bits

theorem toByte_ofByte_append (b : UInt8) (more : Bits) : toByte (ofByte b ++ more) = b := by
  have hlength : (ofByte b).length = 8 := length_ofByte b
  rw [toByte, List.append_assoc, List.take_left' hlength, ofByte, toNat_ofNat,
    Nat.mod_eq_of_lt b.toNat_lt]
  exact UInt8.ofNat_toNat

theorem toBytes_ofBytes (bytes : Bytes) : (ofBytes bytes).toBytes = bytes := by
  have hcount : bytesFor (8 * bytes.length) = bytes.length := by
    unfold bytesFor
    omega
  rw [toBytes, length_ofBytes, hcount]
  induction bytes with
  | nil => rfl
  | cons b rest ih =>
    have hcons : ofBytes (b :: rest) = ofByte b ++ ofBytes rest := rfl
    have hrest : (ofByte b ++ ofBytes rest).drop 8 = ofBytes rest :=
      List.drop_left' (length_ofByte b)
    rw [hcons, List.length_cons, takeBytes, toByte_ofByte_append, hrest, ih]
    unfold bytesFor
    omega

theorem bitAt_toBytes_of_le {bits : Bits} {place : Nat} (h : bits.length ≤ place) :
    bits.toBytes.bitAt place = false := by
  rw [Bytes.bitAt_eq_getD, ofBytes_toBytes, List.getElem?_append_right h, List.getElem?_replicate]
  split <;> rfl

end Bits

namespace BitWriter

open BitReader (Query)

theorem bitsOf_cons (p : Push) (pushes : List Push) :
    bitsOf (p :: pushes) = Bits.ofInt p.width p.value ++ bitsOf pushes := rfl

/-- The bits that integers of given widths take. -/
def totalWidth (widths : List Nat) : Nat :=
  widths.foldr (· + ·) 0

theorem totalWidth_cons (width : Nat) (widths : List Nat) :
    totalWidth (width :: widths) = width + totalWidth widths := rfl

theorem length_bitsOf (pushes : List Push) :
    (bitsOf pushes).length = totalWidth (pushes.map Push.width) := by
  induction pushes with
  | nil => rfl
  | cons p rest ih =>
    rw [bitsOf_cons, List.length_append, Bits.length_ofInt, ih, List.map_cons, totalWidth_cons]

theorem bitsOf_filter_width (pushes : List Push) :
    bitsOf (pushes.filter (·.width ≠ 0)) = bitsOf pushes := by
  induction pushes with
  | nil => rfl
  | cons p rest ih =>
    by_cases hzero : p.width = 0
    · have hnone : Bits.ofInt p.width p.value = [] := by
        rw [hzero]
        rfl
      rw [List.filter_cons_of_neg (by simp [hzero]), ih, bitsOf_cons, hnone, List.nil_append]
    · rw [List.filter_cons_of_pos (by simp [hzero]), bitsOf_cons, bitsOf_cons, ih]

theorem exists_bitsOf_eq {widths : List Nat} {bits : Bits} (h : totalWidth widths = bits.length) :
    ∃ pushes, pushes.map Push.width = widths ∧ bitsOf pushes = bits := by
  induction widths generalizing bits with
  | nil =>
    obtain rfl : bits = [] := List.eq_nil_of_length_eq_zero h.symm
    exact ⟨[], rfl, rfl⟩
  | cons width rest ih =>
    rw [totalWidth_cons] at h
    have hfirst : (bits.take width).length = width := List.length_take_of_le (by omega)
    have hbits := Bits.ofInt_toNat (bits.take width)
    rw [hfirst] at hbits
    have hbehind : totalWidth rest = (bits.drop width).length := by
      rw [List.length_drop]
      omega
    obtain ⟨pushes, hwidths, hrest⟩ := ih hbehind
    refine ⟨⟨Bits.toNat (bits.take width), width⟩ :: pushes, ?_, ?_⟩
    · rw [List.map_cons, hwidths]
    · rw [bitsOf_cons, hbits, hrest, List.take_append_drop]

theorem bitsOf_reading {queries : List Query} {pushes : List Push}
    (h : queries.map Query.width = pushes.map Push.width) :
    bitsOf (List.zipWith Push.mk (List.zipWith (fun q p => q.reading p.value) queries pushes)
      (queries.map Query.width)) = bitsOf pushes := by
  induction queries generalizing pushes with
  | nil =>
    obtain rfl : pushes = [] := by simpa using h.symm
    rfl
  | cons q rest ih =>
    cases pushes with
    | nil => cases h
    | cons p others =>
      obtain ⟨hwidth, hothers⟩ := List.cons.inj h
      rw [List.zipWith_cons_cons, List.map_cons, List.zipWith_cons_cons, bitsOf_cons, bitsOf_cons,
        ih hothers, BitReader.ofInt_reading, hwidth]

theorem isAccepted_zipWith {widths : List Nat} (h : ∀ width ∈ widths, width ≤ 64)
    (values : List Int) : ∀ p ∈ List.zipWith Push.mk values widths, p.isAccepted = true := by
  induction widths generalizing values with
  | nil => simp
  | cons width rest ih =>
    obtain ⟨hwidth, hrest⟩ := List.forall_mem_cons.1 h
    cases values with
    | nil => simp
    | cons value others => exact List.forall_mem_cons.2 ⟨decide_eq_true hwidth, ih hrest others⟩

/-- Pushes one integer behind another, up to the first that is refused. -/
def pushAll (w : BitWriter) (pushes : List Push) : Except OverwideError BitWriter :=
  pushes.foldlM (fun w p => w.push p.value p.width) w

theorem pushAll_of_accepted {pushes : List Push} (h : ∀ p ∈ pushes, p.isAccepted = true)
    (w : BitWriter) : w.pushAll pushes = .ok ⟨w.bits ++ bitsOf pushes⟩ := by
  induction pushes generalizing w with
  | nil => simp [pushAll, bitsOf, pure, Except.pure]
  | cons p rest ih =>
    obtain ⟨hp, hrest⟩ := List.forall_mem_cons.1 h
    have hpush : w.push p.value p.width = .ok (w.put p.value p.width) :=
      if_neg (Nat.not_lt.2 (of_decide_eq_true hp))
    have hmore : w.pushAll (p :: rest) = (w.put p.value p.width).pushAll rest := by
      rw [pushAll, List.foldlM_cons, hpush]
      rfl
    rw [hmore, ih hrest, bits_put, bitsOf_cons, List.append_assoc]

end BitWriter

namespace Checked

open BitReader (Query)
open BitWriter (Push bitsOf)

/-- Bytes that hold integers of some widths. -/
structure ByteWriter.Holds (w : ByteWriter) (pushes : List Push) : Prop where
  /-- They are those of a writer that collects bits. -/
  collected : ∃ b, BitWriter.empty.pushAll pushes = .ok b ∧ w = .ofBits b
  /-- There are as many bits as the widths come to. -/
  length : w.length = BitWriter.totalWidth (pushes.map Push.width)
  /-- There are no more bytes than that takes, and what is left of the last one is zero. -/
  bytes : w.bytes.length = (w.length + 7) / 8
  padding : ∀ place, w.length ≤ place → w.bytes.bitAt place = false
  /-- Whoever reads the same widths, with or without a sign, gets the integers as the widths keep
  them, and comes to the last bit. -/
  readBack : ∀ queries : List Query,
    queries.map Query.width = (pushes.map Push.width).filter (· ≠ 0) →
    (readAll w.bytes 0 queries).run = some (.ok (List.zipWith (fun q p => q.reading p.value) queries
      (pushes.filter (·.width ≠ 0)), w.length))
  /-- There is less than a byte left behind it. -/
  left : 8 * w.bytes.length - w.length < 8

variable {queries : List Query} {pushes : List Push}

theorem readAll_toBytes (hqueries : ∀ q ∈ queries, 1 ≤ q.width ∧ q.width ≤ 64)
    (hwidths : queries.map Query.width = pushes.map Push.width) :
    (readAll (bitsOf pushes).toBytes 0 queries).run =
      some (.ok (List.zipWith (fun q p => q.reading p.value) queries pushes,
        (bitsOf pushes).length)) := by
  have hbits : (BitReader.ofBytes (bitsOf pushes).toBytes).bits =
      Bits.ofBytes (bitsOf pushes).toBytes := rfl
  obtain ⟨r', hread, -, hposition⟩ :=
    BitReader.readAll_of_drop (r := .ofBytes (bitsOf pushes).toBytes) hqueries hwidths
      (hbits.trans (Bits.ofBytes_toBytes _))
  have hbytes := readAll_eq hbits queries
  rw [hread] at hbytes
  exact hbytes.trans
    (congrArg (fun place => some (Except.ok (_, place))) (hposition.trans (Nat.zero_add _)))

theorem holds_bitsOf (h : ∀ p ∈ pushes, p.isAccepted = true) :
    (ByteWriter.ofBits ⟨bitsOf pushes⟩).Holds pushes where
  collected := ⟨⟨bitsOf pushes⟩, BitWriter.pushAll_of_accepted h .empty, rfl⟩
  length := BitWriter.length_bitsOf pushes
  bytes := Bits.length_toBytes (bitsOf pushes)
  padding := fun place hplace => Bits.bitAt_toBytes_of_le hplace
  readBack := by
    intro queries hwidths
    have hpushes : (pushes.map Push.width).filter (· ≠ 0) =
        (pushes.filter (·.width ≠ 0)).map Push.width := by
      rw [List.filter_map]
      rfl
    rw [hpushes] at hwidths
    have hqueries : ∀ q ∈ queries, 1 ≤ q.width ∧ q.width ≤ 64 := by
      intro q hq
      have hmem := List.mem_map_of_mem (f := Query.width) hq
      rw [hwidths] at hmem
      obtain ⟨p, hp, hwidth⟩ := List.mem_map.1 hmem
      obtain ⟨hp, hpos⟩ := List.mem_filter.1 hp
      have hmax := of_decide_eq_true (h p hp)
      have hpos := of_decide_eq_true hpos
      rw [← hwidth]
      exact ⟨Nat.pos_of_ne_zero hpos, hmax⟩
    have hread := readAll_toBytes hqueries hwidths
    rw [BitWriter.bitsOf_filter_width] at hread
    exact hread
  left := by
    show 8 * (bitsOf pushes).toBytes.length - (bitsOf pushes).length < 8
    rw [Bits.length_toBytes, Bits.bytesFor]
    omega

/-- **Writing and reading are inverse, both ways.** -/
theorem readAll_writeAll :
    (∀ pushes : List Push, ∃ w, writeAll .empty pushes = some (pushes.map Push.answer, w) ∧
      w.Holds (pushes.filter Push.isAccepted)) ∧
    (∀ (w : ByteWriter) (p : Push), 64 < p.width →
      (push p).run.run w = some (.error ⟨p.width⟩, w)) ∧
    (∀ (q : Query) (n : Int), 1 ≤ q.width ∧ q.width ≤ 64 → q.toField.holds n = true →
      q.reading n = n) ∧
    (∀ (bytes : Bytes) (queries : List Query), (∀ q ∈ queries, 1 ≤ q.width ∧ q.width ≤ 64) →
      BitWriter.totalWidth (queries.map Query.width) = 8 * bytes.length →
      ∃ values, (readAll bytes 0 queries).run = some (.ok (values, 8 * bytes.length)) ∧
        let pushes := List.zipWith Push.mk values (queries.map Query.width)
        writeAll .empty pushes = some (pushes.map Push.answer, ⟨bytes, 8 * bytes.length⟩)) := by
  refine ⟨fun pushes => ?_, fun w p hp => ?_, fun q n hq hn => BitReader.reading_of_holds hq hn, ?_⟩
  · exact ⟨_, writeAll_ofBits .empty pushes, holds_bitsOf fun p hp => (List.mem_filter.1 hp).2⟩
  · exact run_push_of_refused (decide_eq_false (Nat.not_le.2 hp)) w
  · intro bytes queries hqueries hsum
    obtain ⟨pushes, hwidths, hbits⟩ :=
      BitWriter.exists_bitsOf_eq (hsum.trans (Bits.length_ofBytes bytes).symm)
    have hread := readAll_toBytes hqueries hwidths.symm
    rw [hbits, Bits.toBytes_ofBytes, Bits.length_ofBytes] at hread
    refine ⟨_, hread, ?_⟩
    have hmax : ∀ width ∈ queries.map Query.width, width ≤ 64 :=
      List.forall_mem_map.2 fun q hq => (hqueries q hq).2
    have haccepted := BitWriter.isAccepted_zipWith hmax
      (List.zipWith (fun q p => q.reading p.value) queries pushes)
    have hwritten := writeAll_ofBits .empty (List.zipWith Push.mk
      (List.zipWith (fun q p => q.reading p.value) queries pushes) (queries.map Query.width))
    rw [List.filter_eq_self.2 haccepted, BitWriter.bitsOf_reading hwidths.symm, hbits] at hwritten
    have hbytes : ByteWriter.ofBits ⟨BitWriter.empty.bits ++ Bits.ofBytes bytes⟩ =
        ⟨bytes, 8 * bytes.length⟩ := by
      show ByteWriter.mk (Bits.ofBytes bytes).toBytes (Bits.ofBytes bytes).length = _
      rw [Bits.toBytes_ofBytes, Bits.length_ofBytes]
    rw [hbytes] at hwritten
    exact hwritten

/-- Requests of which one writes nothing and one is refused. -/
def mixed : List Push := [⟨5, 3⟩, ⟨9, 0⟩, ⟨1, 65⟩, ⟨-300, 12⟩]

/-- Three bits without a sign, twelve with one, and the bit that is left. -/
def mixedQueries : List Query :=
  [⟨"flags", false, 3⟩, ⟨"offset", true, 12⟩, ⟨"rest", false, 1⟩]

theorem readAll_writeAll_mixed :
    (∃ w, writeAll .empty mixed = some (mixed.map Push.answer, w) ∧
      w.Holds (mixed.filter Push.isAccepted)) ∧
    (push ⟨1, 65⟩).run.run ⟨[0xBD, 0xA8], 15⟩ = some (.error ⟨65⟩, ⟨[0xBD, 0xA8], 15⟩) ∧
    Query.reading ⟨"offset", true, 12⟩ (-300) = -300 ∧
    ∃ values, (readAll [0xBD, 0xA8] 0 mixedQueries).run = some (.ok (values, 16)) ∧
      let pushes := List.zipWith Push.mk values (mixedQueries.map Query.width)
      writeAll .empty pushes = some (pushes.map Push.answer, ⟨[0xBD, 0xA8], 16⟩) :=
  have ⟨hwritten, hrefused, hread, hcopied⟩ := readAll_writeAll
  ⟨hwritten mixed, hrefused ⟨[0xBD, 0xA8], 15⟩ ⟨1, 65⟩ (by decide),
    hread ⟨"offset", true, 12⟩ (-300) (by decide) (by decide),
    hcopied [0xBD, 0xA8] mixedQueries (by decide) (by decide)⟩

example : (writeAll .empty mixed).map (·.2) = some ⟨[0xBD, 0xA8], 15⟩ := by decide

end Checked

end Downlink
