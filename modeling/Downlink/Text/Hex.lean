import Downlink.Bits

/-!
# Hexadecimal text

Two digits a byte, the high half first.
-/

namespace Downlink.Hex

def digit (n : Nat) : Char :=
  Nat.digitChar (n % 16)

/-- The two lower-case digits of a byte. -/
def ofByte (b : UInt8) : List Char :=
  [digit (b.toNat / 16), digit b.toNat]

/-- Bytes as lower-case digits. -/
def encode (bytes : Bytes) : String :=
  String.ofList (bytes.flatMap ofByte)

/-- A number as lower-case digits, filled up with zeros to `width`. -/
def ofNat (width n : Nat) : String :=
  let digits := Nat.toDigits 16 n
  String.ofList (List.replicate (width - digits.length) '0' ++ digits)

def value? (c : Char) : Option Nat :=
  if '0' ≤ c ∧ c ≤ '9' then some (c.toNat - '0'.toNat)
  else if 'a' ≤ c ∧ c ≤ 'f' then some (c.toNat - 'a'.toNat + 10)
  else if 'A' ≤ c ∧ c ≤ 'F' then some (c.toNat - 'A'.toNat + 10)
  else none

/-- The value of a digit list, none if some character is no digit. -/
def natValue? (cs : List Char) : Option Nat :=
  cs.foldl (fun n c => n.bind fun n => (value? c).map (16 * n + ·)) (some 0)

/-- Splits a list in two halves by position: the elements at even and those at odd places. -/
def bytePairs : List Char → List (Char × Char)
  | a :: b :: rest => (a, b) :: bytePairs rest
  | _ => []

/-- Reads an even number of digits as bytes. -/
def decode? (text : String) : Option Bytes :=
  let cs := text.toList
  if cs.length % 2 ≠ 0 then none
  else (bytePairs cs).mapM fun (a, b) => do
    return UInt8.ofNat (16 * (← value? a) + (← value? b))

end Downlink.Hex
