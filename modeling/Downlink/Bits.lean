/-!
# Bit strings

A payload is one string of bits, the most significant bit of the first byte first. Fields, the
reader, the writer and the layout all speak of positions in that string; bytes are only its
outer form.

* `toNat_ofNat`, `ofNat_toNat`: writing a number in `width` bits and reading it back.
* `ofBytes_toBytes`: packing into bytes only adds zero bits at the end.
-/

namespace Downlink

/-- Powers of numbers are those of the core library, also where another library has its own. -/
scoped instance (priority := 2000) corePower {α : Type} [NatPow α] : Pow α Nat := instPowNat

/-- A bit string, most significant bit first. -/
abbrev Bits := List Bool

/-- Raw bytes, as a datagram or a file holds them. -/
abbrev Bytes := List UInt8

namespace Bits

/-! ## Numbers -/

/-- The number that a bit string spells. -/
def toNat : Bits → Nat
  | [] => 0
  | b :: bs => b.toNat * 2 ^ bs.length + toNat bs

/-- The number that a bit string spells in two's complement. -/
def toInt : Bits → Int
  | [] => 0
  | b :: bs => (toNat bs : Int) - b.toNat * 2 ^ bs.length

/-- The `width` low bits of a number. -/
def ofNat : Nat → Nat → Bits
  | 0, _ => []
  | width + 1, n => n.testBit width :: ofNat width n

/-- The `width` low bits of an integer in two's complement. -/
def ofInt (width : Nat) (n : Int) : Bits :=
  ofNat width (n % 2 ^ width).toNat

@[simp] theorem length_ofNat (width n : Nat) : (ofNat width n).length = width := by
  induction width with
  | zero => rfl
  | succ w ih => simp [ofNat, ih]

@[simp] theorem length_ofInt (width : Nat) (n : Int) : (ofInt width n).length = width :=
  length_ofNat _ _

theorem toNat_lt (bs : Bits) : toNat bs < 2 ^ bs.length := by
  induction bs with
  | nil => simp [toNat]
  | cons b bs ih =>
    have hb : b.toNat ≤ 1 := by cases b <;> decide
    have := Nat.mul_le_mul_right (2 ^ bs.length) hb
    simp only [toNat, List.length_cons, Nat.pow_succ]
    omega

theorem toNat_ofNat (width n : Nat) : toNat (ofNat width n) = n % 2 ^ width := by
  induction width with
  | zero => simp [ofNat, toNat, Nat.mod_one]
  | succ w ih =>
    simp only [ofNat, toNat, length_ofNat, ih, Nat.toNat_testBit, Nat.mod_pow_succ]
    rw [Nat.mul_comm, Nat.add_comm]

theorem toNat_append (as bs : Bits) : toNat (as ++ bs) = toNat as * 2 ^ bs.length + toNat bs := by
  induction as with
  | nil => simp [toNat]
  | cons a as ih =>
    simp only [List.cons_append, toNat, ih, List.length_append, Nat.pow_add, Nat.add_mul]
    rw [Nat.mul_assoc, Nat.add_assoc]

theorem ofNat_toNat (bs : Bits) : ofNat bs.length (toNat bs) = bs := by
  have low : ∀ (bs : Bits) (k : Nat), ofNat bs.length (k * 2 ^ bs.length + toNat bs) = bs := by
    intro bs
    induction bs with
    | nil => intro k; rfl
    | cons b bs ih =>
      intro k
      have hlt := toNat_lt bs
      simp only [List.length_cons, ofNat, toNat]
      have hsum : k * 2 ^ (bs.length + 1) + (b.toNat * 2 ^ bs.length + toNat bs)
          = (2 * k + b.toNat) * 2 ^ bs.length + toNat bs := by
        rw [Nat.pow_succ, Nat.add_mul, Nat.add_assoc]
        congr 1
        rw [Nat.mul_comm 2 k, Nat.mul_assoc, Nat.mul_comm 2]
      rw [hsum, ih]
      have hbit : ((2 * k + b.toNat) * 2 ^ bs.length + toNat bs).testBit bs.length = b := by
        rw [Nat.testBit_eq_decide_div_mod_eq, Nat.mul_comm,
          Nat.mul_add_div (Nat.two_pow_pos _), Nat.div_eq_of_lt hlt]
        cases b <;> simp
      rw [hbit]
  simpa using low bs 0

/-! ## Bytes -/

/-- The eight bits of a byte. -/
def ofByte (b : UInt8) : Bits :=
  ofNat 8 b.toNat

/-- The bits of a byte string. -/
def ofBytes (bytes : Bytes) : Bits :=
  bytes.flatMap ofByte

/-- The byte that begins with these bits and goes on with zeros. Bits after the eighth do not
count. -/
def toByte (bs : Bits) : UInt8 :=
  UInt8.ofNat (toNat ((bs ++ List.replicate 8 false).take 8))

/-- The first `count` bytes of a bit string that goes on with zeros. -/
def takeBytes : Nat → Bits → Bytes
  | 0, _ => []
  | count + 1, bs => toByte bs :: takeBytes count (bs.drop 8)

/-- The number of bytes that hold so many bits. -/
def bytesFor (bitCount : Nat) : Nat :=
  (bitCount + 7) / 8

/-- The bits packed into bytes, the last byte filled up with zeros. -/
def toBytes (bs : Bits) : Bytes :=
  takeBytes (bytesFor bs.length) bs

@[simp] theorem length_ofByte (b : UInt8) : (ofByte b).length = 8 :=
  length_ofNat _ _

@[simp] theorem length_ofBytes (bytes : Bytes) : (ofBytes bytes).length = 8 * bytes.length := by
  induction bytes with
  | nil => rfl
  | cons b bytes ih =>
    have : ofBytes (b :: bytes) = ofByte b ++ ofBytes bytes := rfl
    simp only [this, List.length_append, length_ofByte, ih, List.length_cons]
    omega

@[simp] theorem length_takeBytes (count : Nat) (bs : Bits) :
    (takeBytes count bs).length = count := by
  induction count generalizing bs with
  | zero => rfl
  | succ n ih => simp [takeBytes, ih]

theorem length_toBytes (bs : Bits) : (toBytes bs).length = bytesFor bs.length :=
  length_takeBytes _ _

theorem ofByte_toByte (bs : Bits) :
    ofByte (toByte bs) = (bs ++ List.replicate 8 false).take 8 := by
  have hlen : ((bs ++ List.replicate 8 false).take 8).length = 8 := by simp
  have hlt := toNat_lt ((bs ++ List.replicate 8 false).take 8)
  rw [hlen] at hlt
  have hnat : (toByte bs).toNat = toNat ((bs ++ List.replicate 8 false).take 8) := by
    unfold toByte
    rw [UInt8.toNat_ofNat']
    exact Nat.mod_eq_of_lt hlt
  have := ofNat_toNat ((bs ++ List.replicate 8 false).take 8)
  rw [hlen] at this
  rw [ofByte, hnat, this]

theorem ofBytes_takeBytes (count : Nat) (bs : Bits) :
    ofBytes (takeBytes count bs) = (bs ++ List.replicate (8 * count) false).take (8 * count) := by
  induction count generalizing bs with
  | zero => simp [takeBytes, ofBytes]
  | succ n ih =>
    have hcons : ofBytes (takeBytes (n + 1) bs)
        = ofByte (toByte bs) ++ ofBytes (takeBytes n (bs.drop 8)) := rfl
    rw [hcons, ofByte_toByte, ih]
    apply List.ext_getElem
    · simp; omega
    · intro i h₁ h₂
      simp only [List.getElem_append, List.getElem_take, List.getElem_drop, List.getElem_replicate,
        List.length_append, List.length_take, List.length_drop, List.length_replicate]
      split <;> split <;> (try split) <;> (try rfl) <;> (try omega)
      congr 1
      omega

/-- Packing into bytes adds zero bits up to the end of the last byte and nothing else. -/
theorem ofBytes_toBytes (bs : Bits) :
    ofBytes (toBytes bs) = bs ++ List.replicate (8 * bytesFor bs.length - bs.length) false := by
  rw [toBytes, ofBytes_takeBytes, List.take_append]
  have h : bs.length ≤ 8 * bytesFor bs.length := by unfold bytesFor; omega
  rw [List.take_of_length_le h, List.take_replicate]
  congr 2
  omega

end Bits

end Downlink
