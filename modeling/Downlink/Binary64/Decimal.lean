import Downlink.Binary64

/-!
# Decimal text of binary64 numbers

Reading rounds a decimal numeral to the nearest number. Writing takes the fewest decimal digits
that still lie in the interval of reals rounding to the number, and of several such decimals the
nearest one. What stays to a format is laid down in a `DecimalStyle`: how ties go, when an
exponent is written, and whether whole numbers keep a point.
-/

namespace Downlink

/-! ## Decimals -/

/-- The decimal `digits · 10 ^ exponent`. -/
structure Decimal where
  digits : Nat
  exponent : Int
deriving DecidableEq, Repr

namespace Decimal

/-- The number of decimal digits of a natural number; one for zero. -/
def digitCount (n : Nat) : Nat :=
  (Nat.toDigits 10 n).length

/-- The largest `k` with `10 ^ k ≤ num / den`, for positive `num` and `den`. -/
def floorLog10 (num den : Nat) : Int :=
  if den ≤ num then (digitCount (num / den) : Int) - 1
  else
    let places := digitCount (den / num)
    if num * Nat.pow 10 (places - 1) = den then 1 - (places : Int) else -(places : Int)

def toBinary64 (negative : Bool) (d : Decimal) : Binary64 :=
  if d.digits = 0 then .zero negative
  else
    let leading := (digitCount d.digits : Int) + d.exponent
    if 400 < leading then .infinity negative
    else if leading < -400 then .zero negative
    else if 0 ≤ d.exponent then .round negative (d.digits * Nat.pow 10 d.exponent.toNat) 1
    else .round negative d.digits (Nat.pow 10 (-d.exponent).toNat)

end Decimal

/-! ## Reading -/

/-- Why a text is not a decimal numeral. -/
inductive NumeralError
  | empty
  | malformed
deriving DecidableEq, Repr

def NumeralError.message : NumeralError → String
  | .empty => "cannot parse float from empty string"
  | .malformed => "invalid float literal"

namespace Binary64

def digitsValue (ds : List Char) : Nat :=
  ds.foldl (fun n c => 10 * n + (c.toNat - '0'.toNat)) 0

/-- A sign in front of a numeral; none counts as plus. -/
def takeSign : List Char → Bool × List Char
  | '-' :: cs => (true, cs)
  | '+' :: cs => (false, cs)
  | cs => (false, cs)

/-- The exponent part of a numeral: nothing, or `e` with an optional sign and at least one digit. -/
def readExponent? : List Char → Option Int
  | [] => some 0
  | c :: cs =>
    if c = 'e' ∨ c = 'E' then
      let (negative, ds) := takeSign cs
      if ds.isEmpty ∨ !ds.all Char.isDigit then none
      else some (if negative then -(digitsValue ds : Int) else digitsValue ds)
    else none

/-- An unsigned numeral: digits with at most one point among or around them, then an exponent. -/
def readDecimal? (cs : List Char) : Option Decimal :=
  let whole := cs.takeWhile Char.isDigit
  let rest := cs.dropWhile Char.isDigit
  let (fraction, rest) :=
    match rest with
    | '.' :: after => (after.takeWhile Char.isDigit, after.dropWhile Char.isDigit)
    | _ => ([], rest)
  if whole.isEmpty ∧ fraction.isEmpty then none
  else (readExponent? rest).map fun e => ⟨digitsValue (whole ++ fraction), e - fraction.length⟩

/-- Reads a numeral: an optional sign, then a decimal or one of the words `inf`, `infinity` and
`nan` in any case. -/
def ofText? (text : String) : Except NumeralError Binary64 :=
  if text.isEmpty then .error .empty
  else
    let (negative, cs) := takeSign text.toList
    let word := String.ofList (cs.map Char.toLower)
    if word = "inf" ∨ word = "infinity" then .ok (.infinity negative)
    else if word = "nan" then .ok .nan
    else
      match readDecimal? cs with
      | some d => .ok (d.toBinary64 negative)
      | none => .error .malformed

end Binary64

/-! ## Shortest digits -/

inductive TieRule
  | up
  | even
deriving DecidableEq, Repr

/-- The reals that round to one number, in quarter units of its last place: those from `low` to
`high`, with the ends when `closed`. The number itself is at `middle`. -/
structure RoundingInterval where
  low : Nat
  middle : Nat
  high : Nat
  closed : Bool
  /-- A quarter unit is `num / den`. -/
  num : Nat
  den : Nat

namespace RoundingInterval

/-- The interval around `significand · 2 ^ exponent`. Below a power of two the numbers lie twice
as close, so there the lower half is a quarter unit only. -/
def around (significand : Nat) (exponent : Int) : RoundingInterval :=
  let below := if significand = Binary64.leastNormal ∧ -1074 < exponent then 1 else 2
  let quarter := exponent - 2
  { low := 4 * significand - below
    middle := 4 * significand
    high := 4 * significand + 2
    closed := significand % 2 = 0
    num := 1 <<< quarter.toNat
    den := 1 <<< (-quarter).toNat }

/-- Whether the real `num / den` lies in the interval. -/
def contains (i : RoundingInterval) (num den : Nat) : Bool :=
  let lower := i.low * i.num * den
  let upper := i.high * i.num * den
  let point := num * i.den
  if i.closed then lower ≤ point && point ≤ upper else lower < point && point < upper

/-- The decimal nearest to the middle among the two around it with unit `10 ^ unit`, if one of
them lies in the interval. -/
def onGrid? (i : RoundingInterval) (tie : TieRule) (unit : Int) : Option Decimal :=
  let stepNum := Nat.pow 10 unit.toNat
  let stepDen := Nat.pow 10 (-unit).toNat
  let num := i.middle * i.num * stepDen
  let den := i.den * stepNum
  let under := num / den
  let twice := 2 * (num % den)
  let holds (k : Nat) := i.contains (k * stepNum) stepDen
  let nearer :=
    if twice < den then under
    else if den < twice then under + 1
    else match tie with
      | .up => under + 1
      | .even => if under % 2 = 0 then under else under + 1
  let farther := if nearer = under then under + 1 else under
  if holds nearer then some ⟨nearer, unit⟩
  else if holds farther then some ⟨farther, unit⟩
  else none

end RoundingInterval

namespace Decimal

/-- Drops zeros from the end of the digits. -/
def trimZeros (d : Decimal) : Nat → Decimal
  | 0 => d
  | fuel + 1 =>
    if d.digits ≠ 0 ∧ d.digits % 10 = 0 then trimZeros ⟨d.digits / 10, d.exponent + 1⟩ fuel else d

/-- The shortest decimal that rounds to `significand · 2 ^ exponent`, for a positive significand;
of several the nearest. Seventeen digits always suffice. -/
def shortest (tie : TieRule) (significand : Nat) (exponent : Int) : Decimal :=
  let interval := RoundingInterval.around significand exponent
  let leading := floorLog10 (interval.middle * interval.num) interval.den
  let found := (List.range 17).findSome? fun (more : Nat) => interval.onGrid? tie (leading - more)
  (found.getD ⟨significand <<< exponent.toNat, 0⟩).trimZeros 20

end Decimal

/-! ## Writing -/

structure DecimalStyle where
  tie : TieRule
  /-- Text after the digits of a whole number. -/
  wholeEnding : String
  /-- Whether a number whose first digit stands for `10 ^ k` is written without an exponent. -/
  positional : Int → Bool
  nan : String
  infinity : String

/-- Writes `digits · 10 ^ exponent` without an exponent. -/
def Decimal.positionalText (wholeEnding : String) (d : Decimal) : String :=
  let digits := Nat.toDigits 10 d.digits
  if 0 ≤ d.exponent then
    String.ofList (digits ++ List.replicate d.exponent.toNat '0') ++ wholeEnding
  else
    let places := (-d.exponent).toNat
    let padded := List.replicate (places + 1 - digits.length) '0' ++ digits
    let whole := padded.length - places
    String.ofList (padded.take whole ++ '.' :: padded.drop whole)

/-- Writes `digits · 10 ^ exponent` as one digit, the others after a point, and an exponent with
its sign. -/
def Decimal.scientificText (d : Decimal) : String :=
  let digits := Nat.toDigits 10 d.digits
  let leading := d.exponent + (digits.length - 1 : Nat)
  let mantissa :=
    match digits with
    | first :: [] => [first]
    | first :: others => first :: '.' :: others
    | [] => []
  let sign := if leading < 0 then "e-" else "e+"
  String.ofList mantissa ++ sign ++ toString leading.natAbs

def Binary64.text (style : DecimalStyle) : Binary64 → String
  | .nan => style.nan
  | .infinity negative => (if negative then "-" else "") ++ style.infinity
  | .finite negative significand exponent =>
    let sign := if negative then "-" else ""
    if significand = 0 then sign ++ "0" ++ style.wholeEnding
    else
      let d := Decimal.shortest style.tie significand exponent
      let leading := d.exponent + (Decimal.digitCount d.digits - 1 : Nat)
      sign ++ if style.positional leading then d.positionalText style.wholeEnding
        else d.scientificText

/-- Messages and tables write numbers without an exponent, and whole numbers without a point. -/
def DecimalStyle.plain : DecimalStyle where
  tie := .up
  wholeEnding := ""
  positional _ := true
  nan := "NaN"
  infinity := "inf"

instance : ToString Binary64 := ⟨Binary64.text .plain⟩

end Downlink
