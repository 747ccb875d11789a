import Downlink.Text.Yaml.Scalar

/-!
# Tokens of YAML

Indentation becomes brackets: a token opens each block collection and another closes it. A text in
front of a colon is known to be a key only at the colon, so the key token is put in at the place
that was remembered for it.
-/

namespace Downlink.Yaml

inductive Tag
  | named (name : String)
  /-- A tag whose escapes spell no text. -/
  | broken
deriving DecidableEq, Repr

def Tag.append : Tag → Tag → Tag
  | .named a, .named b => .named (a ++ b)
  | _, _ => .broken

inductive Token
  | streamEnd
  | versionDirective (major minor : Nat)
  | tagDirective (handle : String) (uri : Tag)
  | documentStart
  | documentEnd
  | blockSequenceStart
  | blockMappingStart
  | blockEnd
  | flowSequenceStart
  | flowSequenceEnd
  | flowMappingStart
  | flowMappingEnd
  | blockEntry
  | flowEntry
  | key
  | value
  | alias (name : String)
  | anchor (name : String)
  | tag (handle : String) (suffix : Tag)
  | scalar (style : ScalarStyle) (text : String)
deriving DecidableEq, Repr

structure KeyPlace where
  possible : Bool
  /-- Nothing but a key can begin there. -/
  required : Bool
  /-- The number of tokens in front of it. -/
  token : Nat
  offset : Nat
  line : Nat
  column : Nat

namespace KeyPlace

def none : KeyPlace := ⟨false, false, 0, 0, 0, 0⟩

end KeyPlace

structure Lexer where
  cursor : Cursor
  tokens : Array Token
  /-- The column of the innermost block collection, `-1` outside. -/
  indent : Int
  indents : List Int
  keyAllowed : Bool
  /-- The key place of every open bracket, the innermost first, then that of the block level. -/
  keys : List KeyPlace

namespace Lexer

def start (text : List Char) : Lexer :=
  ⟨.start text, #[], -1, [], true, [.none]⟩

def inFlow (l : Lexer) : Bool :=
  l.keys.length > 1

def emit (l : Lexer) (t : Token) : Lexer :=
  { l with tokens := l.tokens.push t }

def step (l : Lexer) (count : Nat) : Lexer :=
  { l with cursor := l.cursor.advance count }

/-- Puts a token in front of the token with a given number. -/
def insertAt (l : Lexer) (place : Nat) (t : Token) : Lexer :=
  { l with tokens := (l.tokens.toList.insertIdx place t).toArray }

/-! ## Indentation -/

def unroll (column : Int) : Nat → Lexer → Lexer
  | 0, l => l
  | fuel + 1, l =>
    if l.inFlow ∨ l.indent ≤ column then l
    else
      let l := l.emit .blockEnd
      match l.indents with
      | outer :: rest => unroll column fuel { l with indent := outer, indents := rest }
      | [] => { l with indent := -1 }

def unrollTo (l : Lexer) (column : Int) : Lexer :=
  unroll column (l.indents.length + 1) l

/-- Opens a block collection at a column if it lies further in; its token goes to `place`. -/
def roll (l : Lexer) (column : Nat) (place : Nat) (t : Token) : Lexer :=
  if l.inFlow ∨ (column : Int) ≤ l.indent then l
  else { l.insertAt place t with indent := column, indents := l.indent :: l.indents }

def rollHere (l : Lexer) (t : Token) : Lexer :=
  l.roll l.cursor.column l.tokens.size t

/-! ## Key places -/

/-- Forgets the innermost key place; refused when only a key could begin there. -/
def dropKey (l : Lexer) : Option Lexer :=
  match l.keys with
  | k :: rest =>
    if k.possible ∧ k.required then none
    else some { l with keys := .none :: rest }
  | [] => some l

def saveKey (l : Lexer) : Option Lexer :=
  if l.keyAllowed then do
    let l ← l.dropKey
    let c := l.cursor
    let place : KeyPlace :=
      ⟨true, !l.inFlow && l.indent == c.column, l.tokens.size, c.offset, c.line, c.column⟩
    return { l with keys := place :: l.keys.drop 1 }
  else some l

/-- The longest key, in bytes. -/
def maxKeyLength : Nat := 1024

/-- The innermost key place if a key from there may end here: on one line and not too long. A
place that needs a key and cannot have it is refused. -/
def currentKey? (l : Lexer) : Option (Option KeyPlace) :=
  match l.keys with
  | k :: _ =>
    if !k.possible then some none
    else if k.line < l.cursor.line ∨ k.offset + maxKeyLength < l.cursor.offset then
      if k.required then none else some none
    else some (some k)
  | [] => some none

/-! ## Names and tags -/

/-- The number of bytes of a character in UTF-8, by the first of them. -/
def utf8Length? (first : Nat) : Option Nat :=
  if first < 0x80 then some 1
  else if first < 0xc0 then none
  else if first < 0xe0 then some 2
  else if first < 0xf0 then some 3
  else if first < 0xf8 then some 4
  else none

/-- Takes a byte written as `%` and two digits. -/
def takeUriByte (c : Cursor) : Option (Nat × Cursor) :=
  let digits := (c.rest.drop 1).take 2
  if c.at? '%' ∧ digits.length = 2 then (Hex.natValue? digits).map (·, c.advance 3) else none

/-- Takes so many bytes, each of which continues a character. -/
def takeUriTail : Nat → Cursor → Option (List Nat × Cursor)
  | 0, c => some ([], c)
  | count + 1, c => do
    let (byte, c) ← takeUriByte c
    if byte < 0x80 ∨ 0xc0 ≤ byte then none
    else
      let (bytes, c) ← takeUriTail count c
      return (byte :: bytes, c)

/-- Takes a character written in `%` escapes. The form of its bytes is checked; bytes of that form
may still spell none. -/
def takeUriEscape (c : Cursor) : Option (Option Char × Cursor) := do
  let (first, c) ← takeUriByte c
  let (tail, c) ← takeUriTail ((← utf8Length? first) - 1) c
  let bytes := (first :: tail).map UInt8.ofNat
  let decoded := (String.fromUTF8? bytes.toByteArray).bind (·.toList.head?)
  return (decoded, c)

/-- Characters of a tag; commas and square brackets only where the tag is delimited. -/
def isUriChar (delimited : Bool) (c : Char) : Bool :=
  isWord c || ";/?:@&=+$.!~*\x27()".toList.contains c || (delimited && ",[]".toList.contains c)

def takeUri (delimited : Bool) : Nat → Cursor → List (Option Char) →
    Option (List (Option Char) × Cursor)
  | 0, _, _ => none
  | fuel + 1, c, text =>
    match c.peek 0 with
    | none => some (text, c)
    | some x =>
      if x = '%' then do
        let (decoded, c) ← takeUriEscape c
        takeUri delimited fuel c (text ++ [decoded])
      else if isUriChar delimited x then takeUri delimited fuel (c.advance 1) (text ++ [some x])
      else some (text, c)

def takeUriFrom (delimited : Bool) (c : Cursor) (before : List Char) :
    Option (List (Option Char) × Cursor) :=
  takeUri delimited (c.rest.length + 1) c (before.map some)

def tagOf (text : List (Option Char)) : Tag :=
  match (text.takeWhile (· ≠ some (Char.ofNat 0))).mapM id with
  | some name => .named (String.ofList name)
  | none => .broken

/-- Takes a tag handle: `!`, word characters, and another `!` if there is one. -/
def takeHandle (c : Cursor) : Option (List Char × Cursor) :=
  if c.at? '!' then
    let (word, c) := (c.advance 1).takeWhile isWord
    if c.at? '!' then some ('!' :: word ++ ['!'], c.advance 1) else some ('!' :: word, c)
  else none

def takeTag (l : Lexer) : Option Lexer := do
  let c := l.cursor
  let (handle, suffix, c) ←
    if c.peek 1 = some '<' then do
      let (uri, c) ← takeUriFrom true (c.advance 2) []
      if uri.isEmpty ∨ !c.at? '>' then none else some ([], tagOf uri, c.advance 1)
    else do
      let (handle, c) ← takeHandle c
      if 1 < handle.length ∧ handle.getLast? = some '!' then
        let (suffix, c) ← takeUriFrom false c []
        if suffix.isEmpty then none else some (handle, tagOf suffix, c)
      else
        let (suffix, c) ← takeUriFrom false c (handle.drop 1)
        let suffix := tagOf suffix
        some (if suffix = .named "" then ([], .named "!", c) else (['!'], suffix, c))
  if c.blankOrEnd 0 ∨ (l.inFlow ∧ c.at? ',') then
    return { l.emit (.tag (String.ofList handle) suffix) with cursor := c }
  else none

def takeName (l : Lexer) (make : String → Token) : Option Lexer :=
  let (name, c) := (l.cursor.advance 1).takeWhile isWord
  let ended := c.blankOrEnd 0 || (c.peek 0).any fun x => "?:,]\x7d%@\x60".toList.contains x
  if name.isEmpty ∨ !ended then none
  else some { l.emit (make (String.ofList name)) with cursor := c }

/-! ## Directives -/

def takeVersionNumber (c : Cursor) : Option (Nat × Cursor) :=
  let (digits, c) := c.takeWhile Char.isDigit
  if digits.isEmpty ∨ 9 < digits.length then none
  else (digitsInBase? 10 digits).map (·, c)

def takeDirective (l : Lexer) : Option Lexer := do
  let (name, c) := (l.cursor.advance 1).takeWhile isWord
  if !c.blankOrEnd 0 then none
  else
    let word := String.ofList name
    let c := c.skipWhile isBlank
    let (t, c) ←
      if word = "YAML" then do
        let (major, c) ← takeVersionNumber c
        if !c.at? '.' then none
        else do
          let (minor, c) ← takeVersionNumber (c.advance 1)
          some (Token.versionDirective major minor, c)
      else if word = "TAG" then do
        let (handle, c) ← takeHandle c
        if (1 < handle.length ∧ handle.getLast? ≠ some '!')
            ∨ !(c.peek 0).any isBlank then none
        else do
          let (uri, c) ← takeUriFrom true (c.skipWhile isBlank) []
          if uri.isEmpty ∨ !c.blankOrEnd 0 then none
          else some (Token.tagDirective (String.ofList handle) (tagOf uri), c)
      else none
    let c := c.skipToLineEnd
    if c.breakOrEnd then return { l.emit t with cursor := c.takeBreak.2 } else none

/-! ## One token -/

/-- Skips blanks, comments and line breaks, and at the start of a line a byte order mark. A tab
does not count as indentation. -/
def skipToToken : Nat → Lexer → Lexer
  | 0, l => l
  | fuel + 1, l =>
    let tabs := l.inFlow || !l.keyAllowed
    let marked := l.cursor.column = 0 ∧ (l.cursor.peek 0).any isByteOrderMark
    let c := if marked then l.cursor.advance 1 else l.cursor
    let c := c.skipWhile fun x => x = ' ' || (tabs && x = '\t')
    let c := if c.at? '#' then c.skipWhile (!isBreak ·) else c
    if (c.peek 0).any isBreak then
      skipToToken fuel
        { l with cursor := c.takeBreak.2, keyAllowed := l.keyAllowed || !l.inFlow }
    else { l with cursor := c }

def openFlow (l : Lexer) (t : Token) : Option Lexer := do
  let l ← l.saveKey
  return { (l.emit t).step 1 with keys := .none :: l.keys, keyAllowed := true }

def closeFlow (l : Lexer) (t : Token) : Option Lexer := do
  let l ← l.dropKey
  let keys := if l.inFlow then l.keys.drop 1 else l.keys
  return { (l.emit t).step 1 with keys, keyAllowed := false }

/-- Takes `,`. -/
def takeFlowEntry (l : Lexer) : Option Lexer := do
  let l ← l.dropKey
  return { (l.emit .flowEntry).step 1 with keyAllowed := true }

/-- Takes `-`. -/
def takeBlockEntry (l : Lexer) : Option Lexer := do
  let l ← if l.inFlow then some l
    else if l.keyAllowed then some (l.rollHere .blockSequenceStart) else none
  let l ← l.dropKey
  return { (l.emit .blockEntry).step 1 with keyAllowed := true }

/-- Takes `?`. -/
def takeKey (l : Lexer) : Option Lexer := do
  let l ← if l.inFlow then some l
    else if l.keyAllowed then some (l.rollHere .blockMappingStart) else none
  let l ← l.dropKey
  return { (l.emit .key).step 1 with keyAllowed := !l.inFlow }

/-- Takes `:`, after a key on the same line or after a key of its own. -/
def takeValue (l : Lexer) : Option Lexer := do
  let l ← match ← l.currentKey? with
    | some k =>
      let l := l.insertAt k.token .key
      let l := l.roll k.column k.token .blockMappingStart
      some { l with keys := .none :: l.keys.drop 1, keyAllowed := false }
    | none =>
      let l := { l with keys := .none :: l.keys.drop 1 }
      if l.inFlow then some { l with keyAllowed := false }
      else if l.keyAllowed then some { l.rollHere .blockMappingStart with keyAllowed := true }
      else none
  return (l.emit .value).step 1

def takeQuotedScalar (l : Lexer) (quote : Char) (style : ScalarStyle) : Option Lexer := do
  let l ← l.saveKey
  let (text, c) ← takeQuoted quote (l.cursor.rest.length + 1) .empty (l.cursor.advance 1)
  return { l.emit (.scalar style (String.ofList text)) with cursor := c, keyAllowed := false }

def takePlainScalar (l : Lexer) : Option Lexer := do
  let l ← l.saveKey
  let (text, breaks, c) ←
    takePlain l.inFlow (l.indent + 1).toNat (l.cursor.rest.length + 1) .empty l.cursor
  return { l.emit (.scalar .plain (String.ofList text)) with cursor := c, keyAllowed := breaks }

def takeBlockScalar (l : Lexer) (fold : Bool) : Option Lexer := do
  let l ← l.dropKey
  let (text, c) ← takeBlock fold l.indent (l.cursor.advance 1)
  let style := if fold then ScalarStyle.folded else .literal
  return { l.emit (.scalar style (String.ofList text)) with cursor := c, keyAllowed := true }

/-- Forgets everything about the block in front of a directive or document marker. -/
def leaveBlocks (l : Lexer) : Option Lexer := do
  let l ← (l.unrollTo (-1)).dropKey
  return { l with keyAllowed := false }

def startsPlain (l : Lexer) (x : Char) : Bool :=
  let c := l.cursor
  !(isBlank x || "-?:,[]\x7b\x7d#&*!|>\x27\x22%@\x60".toList.contains x)
    || (x = '-' && !(c.peek 1).any isBlank)
    || (!l.inFlow && (x = '?' || x = ':') && !c.blankOrEnd 1)

/-- Takes the token at the cursor, which stands on no blank. -/
def takeToken (l : Lexer) : Option Lexer :=
  let c := l.cursor
  match c.peek 0 with
  | none => none
  | some x =>
    if c.column = 0 ∧ x = '%' then l.leaveBlocks.bind takeDirective
    else if c.atDocumentMarker then do
      let l ← l.leaveBlocks
      return (l.emit (if x = '-' then .documentStart else .documentEnd)).step 3
    else if x = '[' then l.openFlow .flowSequenceStart
    else if x = '\x7b' then l.openFlow .flowMappingStart
    else if x = ']' then l.closeFlow .flowSequenceEnd
    else if x = '\x7d' then l.closeFlow .flowMappingEnd
    else if x = ',' then l.takeFlowEntry
    else if x = '-' ∧ c.blankOrEnd 1 then l.takeBlockEntry
    else if x = '?' ∧ (l.inFlow ∨ c.blankOrEnd 1) then l.takeKey
    else if x = ':' ∧ (l.inFlow ∨ c.blankOrEnd 1) then l.takeValue
    else if x = '*' then do
      let l ← l.saveKey
      return { ← l.takeName .alias with keyAllowed := false }
    else if x = '&' then do
      let l ← l.saveKey
      return { ← l.takeName .anchor with keyAllowed := false }
    else if x = '!' then do
      let l ← l.saveKey
      return { ← l.takeTag with keyAllowed := false }
    else if x = '|' ∧ !l.inFlow then l.takeBlockScalar false
    else if x = '>' ∧ !l.inFlow then l.takeBlockScalar true
    else if x = '\x27' then l.takeQuotedScalar x .singleQuoted
    else if x = '"' then l.takeQuotedScalar x .doubleQuoted
    else if l.startsPlain x then l.takePlainScalar
    else none

/-- Takes all tokens. Every token takes a character, so the length of the text bounds them. -/
def run : Nat → Lexer → Option (List Token)
  | 0, _ => none
  | fuel + 1, l =>
    let l := l.skipToToken (l.cursor.rest.length + 1)
    let l := l.unrollTo l.cursor.column
    if l.cursor.rest.isEmpty then do
      let l ← (l.unrollTo (-1)).dropKey
      return (l.emit .streamEnd).tokens.toList
    else do run fuel (← l.takeToken)

end Lexer

def tokens? (text : String) : Option (List Token) :=
  let cs := text.toList
  if cs.all isPrintable then Lexer.run (cs.length + 1) (.start cs) else none

end Downlink.Yaml
