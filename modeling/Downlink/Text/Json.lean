import Downlink.Binary64.Decimal
import Downlink.Text.Hex

/-!
# JSON values

A value keeps what a reader of settings must tell apart: whole numbers from other numbers, members
in the order of the text, and names that occur twice. Members are written in that order, without
blanks or with two blanks a level.
-/

namespace Downlink

inductive Json
  | null
  | bool (b : Bool)
  /-- A number without fraction and exponent, between `-2 ^ 63` and `2 ^ 64 - 1`. -/
  | int (n : Int)
  /-- Any other number; an infinity stands for one beyond the range of binary64. -/
  | number (x : Binary64)
  | string (s : String)
  /-- A string whose escapes spell no text, such as half of a surrogate pair. -/
  | brokenString
  | array (items : List Json)
  | object (members : List (String × Json))
  /-- An object with a member whose name spells no text. -/
  | brokenObject
deriving Inhabited

/-- Numbers in JSON: whole numbers end in `.0`, and an exponent is written from `10 ^ 16` on and
below `10 ^ (-5)`. -/
def DecimalStyle.json : DecimalStyle where
  tie := .even
  wholeEnding := ".0"
  positional leading := -5 ≤ leading && leading < 16
  nan := "null"
  infinity := "null"

namespace Json

/-! ## Strings -/

def escape (c : Char) : List Char :=
  if c = '"' then ['\\', '"']
  else if c = '\\' then ['\\', '\\']
  else if c = '\n' then ['\\', 'n']
  else if c = '\t' then ['\\', 't']
  else if c = '\r' then ['\\', 'r']
  else if c.toNat = 8 then ['\\', 'b']
  else if c.toNat = 12 then ['\\', 'f']
  else if c.toNat < 32 then '\\' :: 'u' :: '0' :: '0' :: Hex.ofByte c.toNat.toUInt8
  else [c]

def quote (s : String) : String :=
  String.ofList ('"' :: s.toList.flatMap escape ++ ['"'])

theorem quote_of_plain {cs : List Char} (h : ∀ c ∈ cs, escape c = [c]) :
    quote (String.ofList cs) = "\"" ++ String.ofList cs ++ "\"" := by
  have hescape : cs.flatMap escape = cs := by
    rw [List.flatMap_def, List.map_congr_left h, ← List.flatMap_def, List.flatMap_singleton']
  rw [quote, String.toList_ofList, hescape, ← String.toList_inj]
  simp

/-! ## Writing -/

/-- Values that are not finite have no literal and are written `null`. -/
def numberText (x : Binary64) : String :=
  if x.isFinite then x.text .json else "null"

mutual

def text : Json → String
  | .null | .brokenString | .brokenObject => "null"
  | .bool b => if b then "true" else "false"
  | .int n => toString n
  | .number x => numberText x
  | .string s => quote s
  | .array items => "[" ++ ",".intercalate (itemTexts items) ++ "]"
  | .object members => "\x7b" ++ ",".intercalate (memberTexts members) ++ "\x7d"

def itemTexts : List Json → List String
  | [] => []
  | item :: rest => item.text :: itemTexts rest

def memberTexts : List (String × Json) → List String
  | [] => []
  | (name, value) :: rest => (quote name ++ ":" ++ value.text) :: memberTexts rest

end

/-- Parts on lines of their own, one level further in than the brackets around them. -/
def bracketed (opening closing : String) (level : Nat) (parts : List String) : String :=
  let line (level : Nat) := "\n" ++ String.ofList (List.replicate (2 * level) ' ')
  opening ++ ",".intercalate (parts.map (line (level + 1) ++ ·)) ++ line level ++ closing

mutual

/-- A value on several lines, two blanks a level; empty arrays and objects stay on one. -/
def linesText (level : Nat) : Json → String
  | .array [] => "[]"
  | .object [] => "\x7b\x7d"
  | .array items => bracketed "[" "]" level (itemLines (level + 1) items)
  | .object members => bracketed "\x7b" "\x7d" level (memberLines (level + 1) members)
  | .null => text .null
  | .brokenString => text .brokenString
  | .brokenObject => text .brokenObject
  | .bool b => text (.bool b)
  | .int n => text (.int n)
  | .number x => text (.number x)
  | .string s => text (.string s)

def itemLines (level : Nat) : List Json → List String
  | [] => []
  | item :: rest => item.linesText level :: itemLines level rest

def memberLines (level : Nat) : List (String × Json) → List String
  | [] => []
  | (name, value) :: rest => (quote name ++ ": " ++ value.linesText level) :: memberLines level rest

end

def ofNat (n : Nat) : Json := .int n

end Json

end Downlink
