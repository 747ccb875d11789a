import Downlink.Decoder
import Downlink.Proofs.LayoutPlaces
import Downlink.Proofs.MarkerSearch

/-!
# Decoding a byte at a time

A field can be read without looking at single bits: of each byte, as many bits as are left in it are
shifted into a word of 64 bits, and a sign is spread by two more shifts. Every subtraction, index,
slice and shift of that has a condition. `Checked.decode` decodes in this way and gives nothing if
one of these conditions is not met. (Places and lengths have no greatest value here, so there is no
condition on what is only added.)

None of them ever fails. Reading in this way gives the number that the bits spell (`readChunks_eq`),
and spreading the sign gives the integer that they spell in two's complement (`signExtend_eq`). So
the checked decoder always gives something, and that is what the decoder gives (`decode_eq`).
-/

namespace Downlink

namespace Checked

/-! ## Steps with a condition -/

/-- A difference; none if it would fall below zero. -/
def minus (a b : Nat) : Option { d : Nat // d + b = a } :=
  if h : b ≤ a then some ⟨a - b, Nat.sub_add_cancel h⟩ else none

/-- The byte shifted to the right; none if no bit could stay. -/
def shiftRight (byte : UInt8) (count : Nat) : Option UInt8 :=
  if count < 8 then some (byte >>> UInt8.ofNat count) else none

/-- The word shifted to the left; none if no bit could stay. -/
def shiftLeft (word : UInt64) (count : Nat) : Option UInt64 :=
  if count < 64 then some (word <<< UInt64.ofNat count) else none

/-- The bytes from a place on; none if it lies behind the end. -/
def dropTo (bytes : Bytes) (place : Nat) : Option Bytes :=
  if place ≤ bytes.length then some (bytes.drop place) else none

/-- The bytes up to a place; none if it lies behind the end. -/
def takeTo (bytes : Bytes) (place : Nat) : Option Bytes :=
  if place ≤ bytes.length then some (bytes.take place) else none

/-! ## Decoding -/

/-- Reads bits from a place on, of each byte as many as are left in it, and puts them behind the
bits of a word. -/
def readChunks (bytes : Bytes) (place left : Nat) (word : UInt64) : Option (UInt64 × Nat) :=
  if left = 0 then some (word, place)
  else do
    let byte ← bytes[place / 8]?
    let available ← minus 8 (place % 8)
    let taken := min available.1 left
    let below ← minus available.1 taken
    let above ← minus 8 taken
    let rest ← minus left taken
    let low ← shiftRight byte below.1
    let mask ← shiftRight 0xff above.1
    let room ← shiftLeft word taken
    readChunks bytes (place + taken) rest.1 (room ||| (low &&& mask).toUInt64)
termination_by left
decreasing_by
  have := available.2
  have := rest.2
  omega

/-- What is read, or why it is refused; none if a condition was not met. -/
abbrev Reading := ExceptT FieldError Option

def readUnsigned (bytes : Bytes) (place : Nat) (field : String) (width : Nat) :
    Reading (UInt64 × Nat) :=
  if width = 0 ∨ maxFieldWidth < width then throw (.invalidWidth field width)
  else do
    let remaining ← minus (8 * bytes.length) place
    if remaining.1 < width then throw (.insufficientBits field width remaining.1 place)
    else readChunks bytes place width 0

/-- The number that the low bits of a word spell in two's complement. They are shifted to the other
end and back, and the sign follows. -/
def signExtend (word : UInt64) (width : Nat) : Option Int64 := do
  let shift ← minus 64 width
  let high ← shiftLeft word shift.1
  return high.toInt64 >>> Int64.ofNat shift.1

/-- The integer of a word that was read for a field. -/
def rawOfWord (f : Field) (word : UInt64) : Option Int :=
  if f.signed then (signExtend word f.width).map Int64.toInt else some word.toNat

def readFields (bytes : Bytes) (place : Nat) : List Field → Reading (List (String × Value) × Nat)
  | [] => return ([], place)
  | f :: rest => do
    let (word, place) ← readUnsigned bytes place f.name f.width
    if f.reserved then readFields bytes place rest
    else
      let raw ← rawOfWord f word
      let (entries, place) ← readFields bytes place rest
      return ((f.name, Value.ofRaw f raw) :: entries, place)

def unpack (l : Layout) (payload : Bytes) : Reading Record := do
  let (entries, place) ← readFields payload 0 l.fields
  return ⟨entries, place, 8 * payload.length⟩

def unpackExact (l : Layout) (payload : Bytes) : Reading Record := do
  let record ← unpack l payload
  let unread ← minus record.payloadBits record.consumedBits
  if unread.1 = 0 then return record
  else throw (.trailingBits record.consumedBits unread.1)

def extract (m : Markers) (datagram : Bytes) : ExceptT FramingError Option Bytes :=
  match m.sync.find? datagram with
  | none => throw (.syncNotFound m.sync datagram.length)
  | some syncOffset => do
    let rest ← dropTo datagram (syncOffset + 2)
    match m.terminator.find? rest with
    | none => throw (.terminatorNotFound m.terminator syncOffset rest.length)
    | some length => takeTo rest length

/-- The record of a datagram, or why it is refused; none if a condition was not met. -/
def decode (d : Decoder) (datagram : Bytes) : Option (Except DecodeError Record) := do
  match ← (extract d.markers datagram).run with
  | .error cause => return .error (.framing cause)
  | .ok payload =>
    let reading := if d.exact then unpackExact d.layout payload else unpack d.layout payload
    return (← reading.run).mapError .unpacking

end Checked

/-! ## Numbers and their bits -/

namespace Bits

theorem drop_ofNat (gone width n : Nat) : (ofNat (gone + width) n).drop gone = ofNat width n := by
  induction gone with
  | zero => rw [Nat.zero_add, List.drop_zero]
  | succ gone ih => rw [Nat.succ_add, ofNat, List.drop_succ_cons, ih]

theorem take_ofNat (width rest n : Nat) :
    (ofNat (width + rest) n).take width = ofNat width (n / 2 ^ rest) := by
  induction width with
  | zero => rw [List.take_zero, ofNat]
  | succ width ih =>
    rw [Nat.succ_add, ofNat, List.take_succ_cons, ih, ofNat, Nat.testBit_div_two_pow]

end Bits

namespace Checked

variable {bytes : Bytes} {place left taken : Nat} {byte : UInt8}

theorem minus_of_le {a b : Nat} (h : b ≤ a) : minus a b = some ⟨a - b, Nat.sub_add_cancel h⟩ :=
  dif_pos h

/-! ## Chunks of bytes -/

theorem toNat_chunk (byte : UInt8) {below above : Nat} (hbelow : below < 8) (habove : above < 8) :
    ((byte >>> UInt8.ofNat below) &&& ((0xff : UInt8) >>> UInt8.ofNat above)).toNat =
      byte.toNat / 2 ^ below % 2 ^ (8 - above) := by
  have hmask : ∀ above < 8, 255 >>> above = 2 ^ (8 - above) - 1 := by decide
  have hbelow' : (UInt8.ofNat below).toNat = below := by
    rw [UInt8.toNat_ofNat']
    omega
  have habove' : (UInt8.ofNat above).toNat = above := by
    rw [UInt8.toNat_ofNat']
    omega
  rw [UInt8.toNat_and, UInt8.toNat_shiftRight, UInt8.toNat_shiftRight, hbelow', habove',
    Nat.mod_eq_of_lt hbelow, Nat.mod_eq_of_lt habove]
  show _ &&& 255 >>> above = _
  rw [hmask above habove, Nat.and_two_pow_sub_one_eq_mod, Nat.shiftRight_eq_div_pow]

theorem toNat_behind {word : UInt64} {chunk : UInt8} (htaken : taken ≤ 8)
    (hword : word.toNat * 2 ^ taken < UInt64.size) (hchunk : chunk.toNat < 2 ^ taken) :
    ((word <<< UInt64.ofNat taken) ||| chunk.toUInt64).toNat =
      word.toNat * 2 ^ taken + chunk.toNat := by
  have htaken' : (UInt64.ofNat taken).toNat = taken := by
    rw [UInt64.toNat_ofNat']
    omega
  rw [UInt64.toNat_or, UInt64.toNat_shiftLeft, htaken', Nat.mod_eq_of_lt (show taken < 64 by omega),
    Nat.shiftLeft_eq, Nat.mod_eq_of_lt hword, UInt8.toNat_toUInt64, ← Nat.shiftLeft_eq,
    Nat.shiftLeft_add_eq_or_of_lt hchunk]

theorem drop_ofBytes_eq (hbyte : bytes[place / 8]? = some byte) :
    (Bits.ofBytes bytes).drop place =
      Bits.ofNat (8 - place % 8) byte.toNat ++ Bits.ofBytes (bytes.drop (place / 8 + 1)) := by
  obtain ⟨hlt, hget⟩ := List.getElem?_eq_some_iff.1 hbyte
  have hcons : Bits.ofBytes (bytes.drop (place / 8)) =
      Bits.ofByte byte ++ Bits.ofBytes (bytes.drop (place / 8 + 1)) := by
    rw [List.drop_eq_getElem_cons hlt, hget]
    rfl
  have hlow := Bits.drop_ofNat (place % 8) (8 - place % 8) byte.toNat
  rw [Nat.add_sub_cancel' (by omega)] at hlow
  rw [← Nat.div_add_mod place 8, ← List.drop_drop, ← Bits.ofBytes_drop (Nat.le_of_lt hlt),
    Nat.div_add_mod, hcons, List.drop_append_of_le_length, Bits.ofByte, hlow]
  rw [Bits.length_ofByte]
  omega

theorem readChunks_of_pos (hbyte : bytes[place / 8]? = some byte) (hleft : left ≠ 0) (word : UInt64)
    (htaken : taken = min (8 - place % 8) left) :
    readChunks bytes place left word =
      readChunks bytes (place + taken) (left - taken) ((word <<< UInt64.ofNat taken) |||
        ((byte >>> UInt8.ofNat (8 - place % 8 - taken)) &&&
          ((0xff : UInt8) >>> UInt8.ofNat (8 - taken))).toUInt64) := by
  subst htaken
  have hmod : place % 8 ≤ 8 := Nat.le_of_lt (Nat.mod_lt _ (by decide))
  have habove : min (8 - place % 8) left ≤ 8 := by omega
  have hlow : 8 - place % 8 - min (8 - place % 8) left < 8 := by omega
  have hmask : 8 - min (8 - place % 8) left < 8 := by omega
  have hroom : min (8 - place % 8) left < 64 := by omega
  rw [readChunks, if_neg hleft]
  simp only [hbyte, minus_of_le hmod, minus_of_le (Nat.min_le_left _ left), minus_of_le habove,
    minus_of_le (Nat.min_le_right _ left), shiftRight, shiftLeft, if_pos hlow, if_pos hmask,
    if_pos hroom, bind, Option.bind]

theorem toNat_take_drop_ofBytes (hbyte : bytes[place / 8]? = some byte)
    (h : taken ≤ 8 - place % 8) :
    Bits.toNat (((Bits.ofBytes bytes).drop place).take taken) =
      byte.toNat / 2 ^ (8 - place % 8 - taken) % 2 ^ taken := by
  have hfirst := Bits.take_ofNat taken (8 - place % 8 - taken) byte.toNat
  rw [Nat.add_sub_cancel' h] at hfirst
  rw [drop_ofBytes_eq hbyte, List.take_append_of_le_length, hfirst, Bits.toNat_ofNat]
  rw [Bits.length_ofNat]
  exact h

/-- **Reading byte by byte meets every condition, and gives the number that the bits spell.** -/
theorem readChunks_eq (bytes : Bytes) (place left : Nat) (word : UInt64)
    (hend : place + left ≤ 8 * bytes.length) (hword : (word.toNat + 1) * 2 ^ left ≤ UInt64.size) :
    ∃ result, readChunks bytes place left word = some (result, place + left) ∧
      result.toNat = word.toNat * 2 ^ left +
        Bits.toNat (((Bits.ofBytes bytes).drop place).take left) := by
  -- On the bits that are left; a byte always has some of them, so they become fewer.
  induction left using Nat.strongRecOn generalizing place word with
  | ind left ih =>
    by_cases hleft : left = 0
    · subst hleft
      exact ⟨word, by rw [readChunks]; rfl, by simp [Bits.toNat]⟩
    · have hlt : place / 8 < bytes.length := by omega
      have hbyte : bytes[place / 8]? = some bytes[place / 8] := List.getElem?_eq_getElem hlt
      generalize bytes[place / 8] = byte at hbyte
      obtain ⟨taken, htaken⟩ : ∃ taken, taken = min (8 - place % 8) left := ⟨_, rfl⟩
      obtain ⟨rest, rfl⟩ : ∃ rest, left = taken + rest := ⟨left - taken, by omega⟩
      have hbits := toNat_take_drop_ofBytes hbyte (show taken ≤ 8 - place % 8 by omega)
      have hchunk := toNat_chunk byte (show 8 - place % 8 - taken < 8 by omega)
        (show 8 - taken < 8 by omega)
      rw [show 8 - (8 - taken) = taken by omega, ← hbits] at hchunk
      rw [readChunks_of_pos hbyte hleft word htaken, Nat.add_sub_cancel_left]
      generalize (byte >>> UInt8.ofNat (8 - place % 8 - taken)) &&&
          ((0xff : UInt8) >>> UInt8.ofNat (8 - taken)) = chunk at hchunk ⊢
      have hsmall : chunk.toNat < 2 ^ taken := by
        rw [hchunk, hbits]
        exact Nat.mod_lt _ (Nat.two_pow_pos taken)
      -- The word has room for the bits of this byte, and then for the rest.
      rw [Nat.pow_add, ← Nat.mul_assoc] at hword
      have hroom : (word.toNat + 1) * 2 ^ taken ≤ UInt64.size :=
        Nat.le_trans (Nat.le_mul_of_pos_right _ (Nat.two_pow_pos rest)) hword
      rw [Nat.succ_mul] at hword hroom
      have hbehind := toNat_behind (show taken ≤ 8 by omega)
        (show word.toNat * 2 ^ taken < UInt64.size by omega) hsmall
      have hmore : ((word <<< UInt64.ofNat taken) ||| chunk.toUInt64).toNat + 1 ≤
          word.toNat * 2 ^ taken + 2 ^ taken := by
        omega
      obtain ⟨result, hread, hresult⟩ := ih rest (by omega) (place + taken) _ (by omega)
        (Nat.le_trans (Nat.mul_le_mul_right _ hmore) hword)
      refine ⟨result, ?_, ?_⟩
      · rw [hread, Nat.add_assoc]
      · have hlength : (((Bits.ofBytes bytes).drop (place + taken)).take rest).length = rest := by
          rw [List.length_take, List.length_drop, Bits.length_ofBytes]
          omega
        rw [hresult, hbehind, List.take_add, Bits.toNat_append, List.drop_drop, hlength, hchunk,
          Nat.pow_add, Nat.add_mul, Nat.mul_assoc, Nat.add_assoc]

/-! ## Spreading the sign -/

theorem toInt_shifts (word : UInt64) {shift : Nat} (h : shift < 64) :
    ((word <<< UInt64.ofNat shift).toInt64 >>> Int64.ofNat shift).toInt =
      ((word.toNat * 2 ^ shift : Nat) : Int).bmod UInt64.size / 2 ^ shift := by
  have hshifts : ∀ shift < 64, ((Int64.ofNat shift).toBitVec.smod 64).toNat = shift ∧
      ((UInt64.ofNat shift).toBitVec % 64).toNat = shift := by
    decide
  obtain ⟨hright, hleft⟩ := hshifts shift h
  show ((word <<< UInt64.ofNat shift).toInt64 >>> Int64.ofNat shift).toBitVec.toInt = _
  rw [Int64.toBitVec_shiftRight, BitVec.sshiftRight', hright, BitVec.toInt_sshiftRight]
  show (word <<< UInt64.ofNat shift).toBitVec.toInt >>> shift = _
  rw [UInt64.toBitVec_shiftLeft, BitVec.shiftLeft_eq', hleft, BitVec.toInt_shiftLeft,
    Int.shiftRight_eq_div_pow, Nat.shiftLeft_eq]
  norm_cast

theorem bmod_toNat_mul (bits : Bits) {shift : Nat} (hpos : 1 ≤ bits.length)
    (h : bits.length + shift = 64) :
    ((bits.toNat * 2 ^ shift : Nat) : Int).bmod UInt64.size / 2 ^ shift = bits.toInt := by
  obtain ⟨k, hk⟩ := Bits.exists_toInt_eq bits
  obtain ⟨hmin, hmax⟩ := Bits.toInt_bounds hpos
  have hshift : (0 : Int) < 2 ^ shift := by
    exact_mod_cast Nat.two_pow_pos shift
  have hhalf : (2 : Int) ^ (bits.length - 1) * 2 ^ shift = 2 ^ 63 := by
    rw [← Int.pow_add]
    congr 1
    omega
  have hsize : UInt64.size = 2 * 2 ^ 63 := rfl
  have hmultiple : ((bits.toNat * 2 ^ shift : Nat) : Int) =
      bits.toInt * 2 ^ shift + UInt64.size * -k := by
    have hpow : (2 : Int) ^ bits.length * 2 ^ shift = UInt64.size := by
      rw [← Int.pow_add, h]
      rfl
    rw [hk, ← hpow, Int.natCast_mul, Bits.natCast_two_pow, Int.add_mul, Int.mul_assoc _ k,
      Int.mul_comm k, ← Int.mul_assoc, Int.mul_neg, Int.add_neg_cancel_right]
  have hlow := Int.mul_le_mul_of_nonneg_right hmin (Int.le_of_lt hshift)
  have hhigh := Int.mul_lt_mul_of_pos_right hmax hshift
  rw [Int.neg_mul, hhalf] at hlow
  rw [hhalf] at hhigh
  rw [hmultiple, Int.add_mul_bmod_self_left, Int.bmod_eq_of_le (by omega) (by omega),
    Int.mul_ediv_cancel _ (Int.ne_of_gt hshift)]

/-- **Shifting to the end and back gives the integer that the bits spell.** -/
theorem signExtend_eq {word : UInt64} {bits : Bits} (hword : word.toNat = bits.toNat)
    (hpos : 1 ≤ bits.length) (hmax : bits.length ≤ 64) :
    (signExtend word bits.length).map Int64.toInt = some bits.toInt := by
  have hshift : 64 - bits.length < 64 := by omega
  rw [signExtend, minus_of_le hmax]
  simp only [shiftLeft, if_pos hshift, bind, Option.bind, pure, Option.map_some]
  rw [toInt_shifts word hshift, hword, bmod_toNat_mul bits hpos (by omega)]

theorem rawOfWord_eq {f : Field} (hf : f.Valid) {word : UInt64} {bits : Bits}
    (hword : word.toNat = bits.toNat) (hbits : bits.length = f.width) :
    rawOfWord f word = some (f.rawOfBits bits) := by
  have hpos := hf.width_pos
  have hmax : f.width ≤ 64 := hf.width_le
  rw [← hbits] at hpos hmax
  unfold rawOfWord Field.rawOfBits
  cases f.signed
  · simp only [Bool.false_eq_true, if_false, hword]
  · rw [← hbits]
    exact signExtend_eq hword hpos hmax

/-! ## Every condition is met -/

section

variable {ε α β : Type} {step : ExceptT ε Option α} {next : α → ExceptT ε Option β} {a : α} {e : ε}

theorem lift_bind (a : α) (next : α → ExceptT ε Option β) :
    ((liftM (some a) : ExceptT ε Option α) >>= next) = next a := rfl

theorem run_bind_of_ok (h : step.run = some (.ok a)) : (step >>= next).run = (next a).run := by
  rw [ExceptT.run_bind, h]
  rfl

theorem run_bind_of_error (h : step.run = some (.error e)) :
    (step >>= next).run = some (.error e) := by
  rw [ExceptT.run_bind, h]
  rfl

end

variable {f : Field} {fields : List Field}

theorem readUnsigned_of_valid (hf : f.Valid) (h : place ≤ 8 * bytes.length) :
    readUnsigned bytes place f.name f.width =
      if 8 * bytes.length - place < f.width then
        throw (.insufficientBits f.name f.width (8 * bytes.length - place) place)
      else liftM (readChunks bytes place f.width 0) := by
  have hwidth : ¬ (f.width = 0 ∨ maxFieldWidth < f.width) :=
    not_or.2 ⟨Nat.ne_of_gt hf.width_pos, Nat.not_lt.2 hf.width_le⟩
  rw [readUnsigned, if_neg hwidth, minus_of_le h, lift_bind]

theorem readUnsigned_of_le (hf : f.Valid) (h : place + f.width ≤ 8 * bytes.length) :
    ∃ word, (readUnsigned bytes place f.name f.width).run =
        some (.ok (word, place + f.width)) ∧
      word.toNat = Bits.toNat (((Bits.ofBytes bytes).drop place).take f.width) := by
  have hroom : ((0 : UInt64).toNat + 1) * 2 ^ f.width ≤ UInt64.size := by
    rw [UInt64.toNat_zero, Nat.zero_add, Nat.one_mul]
    exact Nat.pow_le_pow_right (by decide) hf.width_le
  obtain ⟨word, hread, hword⟩ := readChunks_eq bytes place f.width 0 h hroom
  refine ⟨word, ?_, by rw [hword, UInt64.toNat_zero, Nat.zero_mul, Nat.zero_add]⟩
  rw [readUnsigned_of_valid hf (by omega), if_neg (by omega), hread]
  rfl

theorem readUnsigned_of_lt (hf : f.Valid) (hplace : place ≤ 8 * bytes.length)
    (h : 8 * bytes.length - place < f.width) :
    (readUnsigned bytes place f.name f.width).run =
      some (.error (.insufficientBits f.name f.width (8 * bytes.length - place) place)) := by
  rw [readUnsigned_of_valid hf hplace, if_pos h]
  rfl

theorem readFields_eq (hvalid : ∀ f ∈ fields, f.Valid) (r : BitReader)
    (hbits : r.bits = Bits.ofBytes bytes) :
    (readFields bytes r.position fields).run =
      some ((Layout.readFields fields r).map fun (entries, r) => (entries, r.position)) := by
  induction fields generalizing r with
  | nil => rfl
  | cons f rest ih =>
    have hf : f.Valid := hvalid f List.mem_cons_self
    have hend : r.position ≤ 8 * bytes.length := by
      rw [← Bits.length_ofBytes, ← hbits]
      exact r.position_le
    have hremaining : r.remaining = 8 * bytes.length - r.position := by
      rw [BitReader.remaining, hbits, Bits.length_ofBytes]
    by_cases hfits : f.width ≤ r.remaining
    · have hinside : r.position + f.width ≤ 8 * bytes.length := by omega
      obtain ⟨word, hread, hword⟩ := readUnsigned_of_le hf hinside
      have hrest := ih (fun g hg => hvalid g (List.mem_cons_of_mem f hg)) (r.skip f.width hfits)
        hbits
      have hlength : (((Bits.ofBytes bytes).drop r.position).take f.width).length = f.width := by
        rw [List.length_take, List.length_drop, Bits.length_ofBytes]
        omega
      rw [BitReader.position_skip] at hrest
      rw [readFields, run_bind_of_ok hread, Layout.readFields, Field.readRaw_of_le hf hfits,
        hbits]
      simp only [rawOfWord_eq hf hword hlength]
      cases hreserved : f.reserved with
      | true =>
        rw [if_pos rfl, hrest]
        simp only [bind, Except.bind]
        cases Layout.readFields rest (r.skip f.width hfits) <;> rfl
      | false =>
        rw [if_neg Bool.false_ne_true, lift_bind]
        simp only [bind, Except.bind]
        cases hmore : Layout.readFields rest (r.skip f.width hfits) with
        | error refusal =>
          rw [hmore] at hrest
          exact run_bind_of_error hrest
        | ok read =>
          rw [hmore] at hrest
          exact run_bind_of_ok hrest
    · rw [readFields, run_bind_of_error (readUnsigned_of_lt hf hend (by omega)), Layout.readFields,
        Field.readRaw_of_lt hf (by omega), hremaining]
      rfl

theorem unpack_eq (l : Layout) (payload : Bytes) :
    (unpack l payload).run = some (l.unpack payload) := by
  have hbits : (BitReader.ofBytes payload).bits = Bits.ofBytes payload := rfl
  have hread := readFields_eq l.fields_valid (BitReader.ofBytes payload) hbits
  rw [Layout.unpack]
  cases hfields : Layout.readFields l.fields (BitReader.ofBytes payload) with
  | error refusal =>
    rw [hfields] at hread
    exact run_bind_of_error hread
  | ok read =>
    rw [hfields] at hread
    exact run_bind_of_ok hread

theorem unpackExact_eq (l : Layout) (payload : Bytes) :
    (unpackExact l payload).run = some (l.unpackExact payload) := by
  have hunpack := unpack_eq l payload
  rw [Layout.unpackExact]
  rcases Nat.lt_or_ge (8 * payload.length) l.frameBits with hshort | hlong
  · obtain ⟨f, offset, -, -, -, herror⟩ := Layout.unpack_of_lt hshort
    rw [herror] at hunpack ⊢
    exact run_bind_of_error hunpack
  · rw [Layout.unpack_of_le hlong] at hunpack ⊢
    have hconsumed : (l.recordOf payload).consumedBits ≤ (l.recordOf payload).payloadBits := hlong
    rw [unpackExact, run_bind_of_ok hunpack, minus_of_le hconsumed, lift_bind]
    show ExceptT.run (if (l.recordOf payload).unreadBits = 0 then _ else _) =
      some (if (l.recordOf payload).unreadBits = 0 then _ else _)
    split <;> rfl

theorem extract_eq (m : Markers) (datagram : Bytes) :
    (extract m datagram).run = some (m.extract datagram) := by
  rw [extract, Markers.extract]
  cases hsync : m.sync.find? datagram with
  | none => rfl
  | some place =>
    have hplace := Marker.add_two_le_of_find? hsync
    simp only [dropTo, if_pos hplace, lift_bind]
    cases hend : m.terminator.find? (datagram.drop (place + 2)) with
    | none => rfl
    | some length =>
      have hlength : length ≤ (datagram.drop (place + 2)).length := by
        have := Marker.add_two_le_of_find? hend
        omega
      simp only [takeTo, if_pos hlength]
      rfl

/-- **Decoding meets every condition on the way, and gives what the decoder gives.** -/
theorem decode_eq (d : Decoder) (datagram : Bytes) :
    decode d datagram = some (d.decode datagram) := by
  rw [decode, extract_eq, Decoder.decode]
  cases d.markers.extract datagram with
  | error cause => rfl
  | ok payload =>
    cases d.exact with
    | true =>
      simp only [bind, Option.bind, if_true, unpackExact_eq]
      cases d.layout.unpackExact payload <;> rfl
    | false =>
      simp only [bind, Option.bind, Bool.false_eq_true, if_false, unpack_eq]
      cases d.layout.unpack payload <;> rfl

end Checked

end Downlink
