import Downlink.Proofs.CheckedDecoding

/-!
# Writing a bit at a time

A writer can do without a bit string. It keeps its bytes and the number of bits in them, begins a
new byte when the last one is full, and sets a bit of the last byte by a mask. Each shift of that has
a condition, and so has the width that it is asked for; when the latter is not met, nothing is
written.

None of the other conditions ever fails, and what such a writer keeps are the bytes of the bit
string (`Checked.run_push`).
-/

namespace Downlink

/-! ## Bytes of a growing bit string -/

namespace Bits

variable {bits : Bits} {bit : Bool}

theorem takeBytes_succ (count : Nat) (bits : Bits) :
    takeBytes (count + 1) bits = takeBytes count bits ++ [toByte (bits.drop (8 * count))] := by
  induction count generalizing bits with
  | zero => rfl
  | succ n ih =>
    rw [takeBytes, ih, takeBytes, List.drop_drop, List.cons_append,
      show 8 + 8 * n = 8 * (n + 1) by omega]

theorem takeBytes_append {count : Nat} (h : 8 * count ≤ bits.length) (more : Bits) :
    takeBytes count (bits ++ more) = takeBytes count bits := by
  induction count generalizing bits with
  | zero => rfl
  | succ n ih =>
    have hbyte : toByte (bits ++ more) = toByte bits := by
      have hlength : 8 ≤ bits.length := by omega
      rw [toByte, toByte, List.append_assoc, List.take_append_of_le_length hlength,
        List.take_append_of_le_length hlength]
    have hrest : 8 * n ≤ (bits.drop 8).length := by
      rw [List.length_drop]
      omega
    rw [takeBytes, takeBytes, hbyte, List.drop_append_of_le_length (by omega), ih hrest]

theorem toNat_append_zeros (bits : Bits) (count : Nat) :
    toNat (bits ++ List.replicate count false) = toNat bits * 2 ^ count := by
  have hzeros : toNat (List.replicate count false) = 0 := by
    induction count with
    | zero => rfl
    | succ n ih => simpa [List.replicate_succ, toNat] using ih
  rw [toNat_append, hzeros, List.length_replicate, Nat.add_zero]

theorem toByte_of_le (h : bits.length ≤ 8) :
    toByte bits = UInt8.ofNat (toNat bits * 2 ^ (8 - bits.length)) := by
  rw [toByte, List.take_append, List.take_of_length_le h, List.take_replicate,
    Nat.min_eq_left (by omega), toNat_append_zeros]

theorem toByte_concat (h : bits.length < 8) (bit : Bool) :
    toByte (bits ++ [bit]) =
      if bit then toByte bits ||| ((0x80 : UInt8) >>> UInt8.ofNat bits.length)
      else toByte bits := by
  have hmask : ∀ used < 8, ((0x80 : UInt8) >>> UInt8.ofNat used).toNat = 2 ^ (7 - used) := by
    decide
  have hlength : (bits ++ [bit]).length = bits.length + 1 := List.length_append
  have hlast : 8 - bits.length = 7 - bits.length + 1 := by omega
  have hsum : toNat (bits ++ [bit]) * 2 ^ (8 - (bits ++ [bit]).length) =
      toNat bits * 2 ^ (8 - bits.length) + bit.toNat * 2 ^ (7 - bits.length) := by
    rw [hlength, show 8 - (bits.length + 1) = 7 - bits.length by omega, hlast, toNat_append,
      Nat.add_mul, Nat.pow_succ', ← Nat.mul_assoc]
    simp [toNat]
  rw [toByte_of_le (by omega), toByte_of_le (Nat.le_of_lt h), hsum]
  cases bit with
  | false => simp
  | true =>
    have hlow : 2 ^ (7 - bits.length) < 2 ^ (8 - bits.length) :=
      Nat.pow_lt_pow_right (by decide) (by omega)
    apply UInt8.toNat_inj.1
    rw [if_pos rfl, UInt8.toNat_or, hmask _ h, UInt8.toNat_ofNat', UInt8.toNat_ofNat',
      Bool.toNat_true, Nat.one_mul, ← Nat.shiftLeft_eq, Nat.shiftLeft_add_eq_or_of_lt hlow,
      Nat.or_mod_two_pow, Nat.mod_eq_of_lt (show 2 ^ (7 - bits.length) < 2 ^ 8 from
        Nat.pow_lt_pow_right (by decide) (by omega))]

theorem toBytes_eq (bits : Bits) :
    (if bits.length % 8 = 0 then bits.toBytes ++ [0] else bits.toBytes) =
      takeBytes (bits.length / 8) bits ++ [toByte (bits.drop (8 * (bits.length / 8)))] := by
  by_cases hfull : bits.length % 8 = 0
  · have hcount : bytesFor bits.length = bits.length / 8 := by
      unfold bytesFor
      omega
    have hnone : bits.drop (8 * (bits.length / 8)) = [] := List.drop_of_length_le (by omega)
    rw [if_pos hfull, toBytes, hcount, hnone]
    rfl
  · have hcount : bytesFor bits.length = bits.length / 8 + 1 := by
      unfold bytesFor
      omega
    rw [if_neg hfull, toBytes, hcount, takeBytes_succ]

theorem toBytes_concat (bits : Bits) (bit : Bool) :
    (bits ++ [bit]).toBytes = takeBytes (bits.length / 8) bits ++
      [toByte (bits.drop (8 * (bits.length / 8)) ++ [bit])] := by
  have hcount : bytesFor (bits ++ [bit]).length = bits.length / 8 + 1 := by
    rw [List.length_append, List.length_singleton, bytesFor]
    omega
  have hle : 8 * (bits.length / 8) ≤ bits.length := Nat.mul_div_le _ 8
  rw [toBytes, hcount, takeBytes_succ, takeBytes_append hle, List.drop_append_of_le_length hle]

theorem ofNat_mod (width n : Nat) : ofNat width (n % 2 ^ width) = ofNat width n := by
  have hbits := ofNat_toNat (ofNat width n)
  rwa [length_ofNat, toNat_ofNat] at hbits

end Bits

/-! ## Bytes that are written in place -/

/-- A request to write low bits of an integer. -/
structure BitWriter.Push where
  value : Int
  width : Nat
deriving DecidableEq, Repr

namespace Checked

open BitWriter (Push)

/-- Bytes, and the number of bits that were written in them. -/
structure ByteWriter where
  bytes : Bytes
  length : Nat
deriving DecidableEq, Repr

namespace ByteWriter

def empty : ByteWriter := ⟨[], 0⟩

/-- The bytes of a writer that keeps bits. -/
def ofBits (w : BitWriter) : ByteWriter := ⟨w.finish, w.length⟩

/-- The bytes with room for one more bit: behind full bytes there is a new one. -/
def room (w : ByteWriter) : Bytes :=
  if w.length % 8 = 0 then w.bytes ++ [0] else w.bytes

end ByteWriter

/-- The word shifted to the right; none if no bit could stay. -/
def shiftWordRight (word : UInt64) (count : Nat) : Option UInt64 :=
  if count < 64 then some (word >>> UInt64.ofNat count) else none

/-- Sets bits of the last byte, if there is one. -/
def setInLast (bytes : Bytes) (mask : UInt8) : Bytes :=
  match bytes.getLast? with
  | some last => bytes.dropLast ++ [last ||| mask]
  | none => bytes

/-- Writes one bit. -/
def writeBit (w : ByteWriter) (bit : UInt8) : Option ByteWriter :=
  if bit = 1 then
    (shiftRight 0x80 (w.length % 8)).map fun mask => ⟨setInLast w.room mask, w.length + 1⟩
  else some ⟨w.room, w.length + 1⟩

/-- Writes the low bits of a word, the highest of them first. -/
def writeWord (word : UInt64) : Nat → ByteWriter → Option ByteWriter
  | 0, w => some w
  | place + 1, w => do
    let shifted ← shiftWordRight word place
    let w ← writeBit w (shifted &&& 1).toUInt8
    writeWord word place w

/-- What changes a writer, or fails and leaves it as it was; none if a condition was not met. -/
abbrev Writing := ExceptT OverwideError (StateT ByteWriter Option)

/-- Writes the low bits of an integer, which is taken as a word in two's complement. -/
def push (p : Push) : Writing Unit :=
  if maxFieldWidth < p.width then throw ⟨p.width⟩
  else fun w => (writeWord (.ofInt p.value) p.width w).map (.ok (), ·)

/-! ## Nothing but the width is refused -/

theorem setInLast_concat (front : Bytes) (last mask : UInt8) :
    setInLast (front ++ [last]) mask = front ++ [last ||| mask] := by
  rw [setInLast, List.getLast?_concat]
  simp only [List.dropLast_concat]

/-- **Writing a bit meets every condition, and gives the bytes with one bit more.** -/
theorem writeBit_ofBits (w : BitWriter) (bit : Bool) :
    writeBit (.ofBits w) bit.toUInt8 = some (.ofBits ⟨w.bits ++ [bit]⟩) := by
  have hused : w.length % 8 < 8 := Nat.mod_lt _ (by decide)
  have htail : (w.bits.drop (8 * (w.bits.length / 8))).length = w.length % 8 := by
    rw [List.length_drop, BitWriter.length]
    omega
  have hroom : (ByteWriter.ofBits w).room = Bits.takeBytes (w.bits.length / 8) w.bits ++
      [Bits.toByte (w.bits.drop (8 * (w.bits.length / 8)))] := Bits.toBytes_eq w.bits
  have hnext : ByteWriter.ofBits ⟨w.bits ++ [bit]⟩ =
      ⟨(w.bits ++ [bit]).toBytes, w.length + 1⟩ := by
    rw [ByteWriter.ofBits, BitWriter.finish, BitWriter.length, List.length_append]
    rfl
  rw [hnext, Bits.toBytes_concat, Bits.toByte_concat (by rw [htail]; exact hused), htail]
  cases bit with
  | false =>
    rw [writeBit, if_neg (by decide), hroom]
    rfl
  | true =>
    have hmask : shiftRight 0x80 ((ByteWriter.ofBits w).length % 8) =
        some ((0x80 : UInt8) >>> UInt8.ofNat (w.length % 8)) := if_pos hused
    rw [writeBit, if_pos (by decide), hmask, Option.map_some, hroom, setInLast_concat]
    rfl

theorem bit_shiftWordRight (word : UInt64) {place : Nat} (h : place < 64) :
    ((word >>> UInt64.ofNat place) &&& 1).toUInt8 = (word.toNat.testBit place).toUInt8 := by
  have hplace : (UInt64.ofNat place).toNat = place := by
    rw [UInt64.toNat_ofNat']
    omega
  have hbit : ((word >>> UInt64.ofNat place) &&& 1).toNat = (word.toNat.testBit place).toNat := by
    rw [UInt64.toNat_and, UInt64.toNat_shiftRight, hplace, Nat.mod_eq_of_lt h, Nat.toNat_testBit,
      Nat.shiftRight_eq_div_pow]
    exact Nat.and_one_is_mod _
  apply UInt8.toNat_inj.1
  rw [UInt64.toNat_toUInt8, hbit]
  cases word.toNat.testBit place <;> rfl

theorem writeWord_ofBits (word : UInt64) {width : Nat} (h : width ≤ 64) (w : BitWriter) :
    writeWord word width (.ofBits w) =
      some (.ofBits ⟨w.bits ++ Bits.ofNat width word.toNat⟩) := by
  induction width generalizing w with
  | zero => rw [Bits.ofNat, List.append_nil, writeWord]
  | succ place ih =>
    have hshift : shiftWordRight word place = some (word >>> UInt64.ofNat place) := if_pos h
    simp only [writeWord, hshift, bit_shiftWordRight word h, bind, Option.bind,
      writeBit_ofBits, ih (Nat.le_of_lt h), Bits.ofNat, List.append_assoc, List.singleton_append]

theorem ofNat_toNat_ofInt {width : Nat} (h : width ≤ 64) (value : Int) :
    Bits.ofNat width (UInt64.ofInt value).toNat = Bits.ofInt width value := by
  have hword : ((UInt64.ofInt value).toNat : Int) = value % 2 ^ 64 := by
    rw [UInt64.ofInt, UInt64.toNat_ofNat']
    omega
  have hdvd : (2 : Int) ^ width ∣ 2 ^ 64 :=
    ⟨2 ^ (64 - width), by rw [← Int.pow_add, Nat.add_sub_cancel' h]⟩
  have hlow : (((UInt64.ofInt value).toNat % 2 ^ width : Nat) : Int) = value % 2 ^ width := by
    rw [Int.natCast_emod, hword, Bits.natCast_two_pow, Int.emod_emod_of_dvd _ hdvd]
  rw [Bits.ofInt, ← hlow, Int.toNat_natCast, Bits.ofNat_mod]

/-- **Writing in place is writing**, and a width that is refused changes nothing. -/
theorem run_push (w : BitWriter) (p : Push) :
    (push p).run.run (.ofBits w) = some
      (match w.push p.value p.width with
      | .ok w' => (.ok (), .ofBits w')
      | .error refusal => (.error refusal, .ofBits w)) := by
  unfold push BitWriter.push
  by_cases hwidth : maxFieldWidth < p.width
  · rw [if_pos hwidth, if_pos hwidth]
    rfl
  · have hwritten := writeWord_ofBits (.ofInt p.value) (Nat.not_lt.1 hwidth) w
    rw [ofNat_toNat_ofInt (Nat.not_lt.1 hwidth)] at hwritten
    rw [if_neg hwidth, if_neg hwidth]
    show (writeWord (.ofInt p.value) p.width (.ofBits w)).map (Except.ok (), ·) = _
    rw [hwritten]
    rfl

/-! ## One request behind another -/

/-- Writes what is asked for, one request behind another. One that is refused is passed over. -/
def writeAll (w : ByteWriter) : List Push → Option (List (Except OverwideError Unit) × ByteWriter)
  | [] => some ([], w)
  | p :: rest => do
    let (answer, w) ← (push p).run.run w
    let (answers, w) ← writeAll w rest
    return (answer :: answers, w)

end Checked

namespace BitWriter

/-- Whether a word has so many bits. -/
def Push.isAccepted (p : Push) : Bool :=
  p.width ≤ maxFieldWidth

def Push.answer (p : Push) : Except OverwideError Unit :=
  if p.isAccepted then .ok () else .error ⟨p.width⟩

/-- The bits of integers one behind another. -/
def bitsOf (pushes : List Push) : Bits :=
  pushes.flatMap fun p => Bits.ofInt p.width p.value

end BitWriter

namespace Checked

open BitWriter (Push bitsOf)

theorem run_push_of_accepted {p : Push} (h : p.isAccepted = true) (w : BitWriter) :
    (push p).run.run (.ofBits w) = some (.ok (), .ofBits (w.put p.value p.width)) := by
  rw [run_push, BitWriter.push, if_neg (Nat.not_lt.2 (of_decide_eq_true h))]

theorem run_push_of_refused {p : Push} (h : p.isAccepted = false) (w : ByteWriter) :
    (push p).run.run w = some (.error ⟨p.width⟩, w) := by
  rw [push, if_pos (Nat.not_le.1 (of_decide_eq_false h))]
  rfl

theorem writeAll_ofBits (w : BitWriter) (pushes : List Push) :
    writeAll (.ofBits w) pushes = some (pushes.map Push.answer,
      .ofBits ⟨w.bits ++ bitsOf (pushes.filter Push.isAccepted)⟩) := by
  induction pushes generalizing w with
  | nil => simp [writeAll, bitsOf]
  | cons p rest ih =>
    rw [writeAll, List.map_cons]
    cases haccepted : p.isAccepted with
    | true =>
      rw [run_push_of_accepted haccepted, List.filter_cons_of_pos haccepted]
      simp [ih, bitsOf, Push.answer, haccepted]
    | false =>
      rw [run_push_of_refused haccepted, List.filter_cons_of_neg (by simp [haccepted])]
      simp [ih, Push.answer, haccepted]

end Checked

end Downlink
