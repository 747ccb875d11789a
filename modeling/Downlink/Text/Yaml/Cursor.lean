/-!
# Places in a YAML text

A cursor is the rest of a text with the line, the column and the byte where it begins. The column
decides about indentation, so every step over a character goes through here.
-/

namespace Downlink.Yaml

/-! ## Character classes -/

/-- A line break: line feed, carriage return, next line, line or paragraph separator. -/
def isBreak (c : Char) : Bool :=
  c = '\n' || c = '\r' || c.toNat = 0x85 || c.toNat = 0x2028 || c.toNat = 0x2029

def isBlank (c : Char) : Bool :=
  c = ' ' || c = '\t'

/-- Characters of anchors, tag handles and directive names. -/
def isWord (c : Char) : Bool :=
  c.isAlphanum || c = '_' || c = '-'

def isPrintable (c : Char) : Bool :=
  let n := c.toNat
  n = 0x9 || n = 0xa || n = 0xd || (0x20 ≤ n && n ≤ 0x7e) || n = 0x85 || (0xa0 ≤ n && n ≤ 0xd7ff)
    || (0xe000 ≤ n && n ≤ 0xfffd) || 0x10000 ≤ n

/-- The byte order mark. -/
def isByteOrderMark (c : Char) : Bool :=
  c.toNat = 0xfeff

/-- Flow indicators, which end a plain scalar inside brackets. -/
def isFlowIndicator (c : Char) : Bool :=
  c = ',' || c = '[' || c = ']' || c = '\x7b' || c = '\x7d'

/-! ## Cursors -/

structure Cursor where
  rest : List Char
  /-- The number of bytes in front. -/
  offset : Nat
  line : Nat
  column : Nat

namespace Cursor

def start (text : List Char) : Cursor :=
  ⟨text, 0, 0, 0⟩

/-- The character at a distance, none behind the end. -/
def peek (c : Cursor) (distance : Nat) : Option Char :=
  c.rest[distance]?

def at? (c : Cursor) (expected : Char) : Bool :=
  c.peek 0 == some expected

/-- Whether a blank, a line break or the end is at a distance. -/
def blankOrEnd (c : Cursor) (distance : Nat) : Bool :=
  match c.peek distance with
  | some x => isBlank x || isBreak x
  | none => true

def breakOrEnd (c : Cursor) : Bool :=
  match c.peek 0 with
  | some x => isBreak x
  | none => true

def advance (c : Cursor) (count : Nat) : Cursor :=
  let passed := c.rest.take count
  ⟨c.rest.drop count, passed.foldl (· + ·.utf8Size) c.offset, c.line, c.column + count⟩

def takeWhile (c : Cursor) (p : Char → Bool) : List Char × Cursor :=
  let taken := c.rest.takeWhile p
  (taken, c.advance taken.length)

def skipWhile (c : Cursor) (p : Char → Bool) : Cursor :=
  (c.takeWhile p).2

/-- Takes a line break. All breaks count as line feeds but the two separators, which stay. -/
def takeBreak (c : Cursor) : List Char × Cursor :=
  match c.rest with
  | '\r' :: '\n' :: rest => (['\n'], ⟨rest, c.offset + 2, c.line + 1, 0⟩)
  | x :: rest =>
    let kept := if x.toNat = 0x2028 ∨ x.toNat = 0x2029 then x else '\n'
    if isBreak x then ([kept], ⟨rest, c.offset + x.utf8Size, c.line + 1, 0⟩) else ([], c)
  | [] => ([], c)

/-- Whether a document marker, three dashes or three points, fills the start of this line. -/
def atDocumentMarker (c : Cursor) : Bool :=
  c.column == 0 && ("---".toList.isPrefixOf c.rest || "...".toList.isPrefixOf c.rest)
    && c.blankOrEnd 3

/-- Skips blanks and a comment up to the end of the line. -/
def skipToLineEnd (c : Cursor) : Cursor :=
  let c := c.skipWhile isBlank
  if c.at? '#' then c.skipWhile (!isBreak ·) else c

end Cursor

end Downlink.Yaml
