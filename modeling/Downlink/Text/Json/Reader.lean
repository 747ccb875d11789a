import Downlink.Text.Json

/-!
# Reading JSON

The grammar of JSON, strictly: no comments, no trailing commas, no leading zeros, no control
characters in strings. A reader takes a value from the front of a character list and leaves the
rest; the depth of nesting is bounded by the length of the text.
-/

namespace Downlink.Json

def skipBlanks : List Char → List Char
  | c :: cs => if c = ' ' ∨ c = '\n' ∨ c = '\t' ∨ c = '\r' then skipBlanks cs else c :: cs
  | [] => []

/-! ## Strings -/

def hexQuad? : List Char → Option (Nat × List Char)
  | a :: b :: c :: d :: rest => (Hex.natValue? [a, b, c, d]).map (·, rest)
  | _ => none

inductive StringPiece
  | char (c : Char)
  /-- A code unit written as an escape. -/
  | unit (n : Nat)

/-- The pieces of a string literal up to its closing quote, behind those read before, and the rest
after it. -/
def stringPieces? : Nat → List StringPiece → List Char → Option (List StringPiece × List Char)
  | 0, _, _ => none
  | fuel + 1, before, cs =>
    match cs with
    | [] => none
    | '"' :: rest => some (before.reverse, rest)
    | '\\' :: 'u' :: rest =>
      match hexQuad? rest with
      | some (unit, rest) => stringPieces? fuel (.unit unit :: before) rest
      | none => none
    | '\\' :: c :: rest =>
      match escaped? c with
      | some c => stringPieces? fuel (.char c :: before) rest
      | none => none
    | c :: rest =>
      if c.toNat < 32 ∨ c = '\\' then none else stringPieces? fuel (.char c :: before) rest
where
  /-- The character that a one-letter escape stands for. -/
  escaped? (c : Char) : Option Char :=
    if c = '"' ∨ c = '\\' ∨ c = '/' then some c
    else if c = 'b' then some (Char.ofNat 8)
    else if c = 'f' then some (Char.ofNat 12)
    else if c = 'n' then some '\n'
    else if c = 'r' then some '\r'
    else if c = 't' then some '\t'
    else none

/-- The characters that pieces spell, behind those spelled before; none if a surrogate stands
alone. -/
def spell? (before : List Char) : List StringPiece → Option (List Char)
  | [] => some before.reverse
  | .char c :: rest => spell? (c :: before) rest
  | .unit high :: .unit low :: rest =>
    if 0xd800 ≤ high ∧ high < 0xdc00 then
      if 0xdc00 ≤ low ∧ low < 0xe000 then
        spell? (Char.ofNat (0x10000 + (high - 0xd800) * 0x400 + (low - 0xdc00)) :: before) rest
      else none
    else if 0xdc00 ≤ high ∧ high < 0xe000 then none
    else spell? (Char.ofNat high :: before) (.unit low :: rest)
  | .unit n :: rest =>
    if 0xd800 ≤ n ∧ n < 0xe000 then none else spell? (Char.ofNat n :: before) rest

/-! ## Numbers -/

def number? (cs : List Char) : Option (Json × List Char) :=
  let (negative, cs) := match cs with
    | '-' :: cs => (true, cs)
    | cs => (false, cs)
  let whole := cs.takeWhile Char.isDigit
  let rest := cs.dropWhile Char.isDigit
  if whole.isEmpty ∨ (whole.length > 1 ∧ whole.head? = some '0') then none
  else do
    let (fraction, rest) ← match rest with
      | '.' :: rest =>
        let digits := rest.takeWhile Char.isDigit
        if digits.isEmpty then none else some (some digits, rest.dropWhile Char.isDigit)
      | rest => some (none, rest)
    let (exponent, rest) ← match rest with
      | c :: after =>
        if c = 'e' ∨ c = 'E' then
          let (down, after) := Binary64.takeSign after
          let digits := after.takeWhile Char.isDigit
          if digits.isEmpty then none
          else
            let size : Int := Binary64.digitsValue digits
            some (some (if down then -size else size), after.dropWhile Char.isDigit)
        else some (none, rest)
      | [] => some (none, rest)
    let magnitude := Binary64.digitsValue whole
    let isWhole := fraction.isNone && exponent.isNone &&
      if negative then 0 < magnitude && magnitude ≤ UInt64.size / 2 else magnitude < UInt64.size
    if isWhole then return (.int (if negative then -(magnitude : Int) else magnitude), rest)
    else
      let places := fraction.getD []
      let decimal : Decimal :=
        ⟨Binary64.digitsValue (whole ++ places), exponent.getD 0 - places.length⟩
      return (.number (decimal.toBinary64 negative), rest)

/-! ## Values -/

/-- A word such as `true` at the front of a text. -/
def word? (word : List Char) (value : Json) (cs : List Char) : Option (Json × List Char) :=
  if word.isPrefixOf cs then some (value, cs.drop word.length) else none

/-- A string literal, after its opening quote. -/
def string? (cs : List Char) : Option (Option String × List Char) := do
  let (pieces, rest) ← stringPieces? (cs.length + 1) [] cs
  return ((spell? [] pieces).map String.ofList, rest)

def objectOf (members : List (Option String × Json)) : Json :=
  match members.mapM fun (name, value) => name.map (·, value) with
  | some members => .object members
  | none => .brokenObject

mutual

def value? : Nat → List Char → Option (Json × List Char)
  | 0, _ => none
  | fuel + 1, cs =>
    match skipBlanks cs with
    | '"' :: rest => do
      let (s, rest) ← string? rest
      return (s.elim .brokenString .string, rest)
    | '[' :: rest =>
      match skipBlanks rest with
      | ']' :: rest => some (.array [], rest)
      | rest => do
        let (items, rest) ← items? fuel rest
        return (.array items, rest)
    | '\x7b' :: rest =>
      match skipBlanks rest with
      | '\x7d' :: rest => some (.object [], rest)
      | rest => do
        let (members, rest) ← members? fuel rest
        return (objectOf members, rest)
    | 't' :: rest => word? "true".toList (.bool true) ('t' :: rest)
    | 'f' :: rest => word? "false".toList (.bool false) ('f' :: rest)
    | 'n' :: rest => word? "null".toList .null ('n' :: rest)
    | rest => number? rest

def items? : Nat → List Char → Option (List Json × List Char)
  | 0, _ => none
  | fuel + 1, cs => do
    let (item, rest) ← value? fuel cs
    match skipBlanks rest with
    | ',' :: rest =>
      let (items, rest) ← items? fuel rest
      return (item :: items, rest)
    | ']' :: rest => return ([item], rest)
    | _ => none

def members? : Nat → List Char → Option (List (Option String × Json) × List Char)
  | 0, _ => none
  | fuel + 1, cs =>
    match skipBlanks cs with
    | '"' :: rest => do
      let (name, rest) ← string? rest
      match skipBlanks rest with
      | ':' :: rest =>
        let (value, rest) ← value? fuel rest
        match skipBlanks rest with
        | ',' :: rest =>
          let (members, rest) ← members? fuel rest
          return ((name, value) :: members, rest)
        | '\x7d' :: rest => return ([(name, value)], rest)
        | _ => none
      | _ => none
    | _ => none

end

/-- Reads a text that holds one value and nothing else. -/
def parse? (text : String) : Option Json := do
  let cs := text.toList
  let (value, rest) ← value? (2 * cs.length + 2) cs
  if (skipBlanks rest).isEmpty then return value else none

end Downlink.Json
