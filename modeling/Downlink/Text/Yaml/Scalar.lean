import Downlink.Text.Hex
import Downlink.Text.Yaml.Cursor

/-!
# Scalars of YAML

The text of a scalar after folding its lines and resolving its escapes, in each of the five
styles, and how a plain scalar is read as a null, a boolean or an integer.
-/

namespace Downlink.Yaml

inductive ScalarStyle
  | plain
  | singleQuoted
  | doubleQuoted
  | literal
  | folded
deriving DecidableEq, Repr

/-! ## Folding -/

/-- Text collected so far, the last character first, and the blanks that may yet join it. -/
structure Folding where
  text : List Char
  /-- Blanks since the last character, on its line. -/
  blanks : List Char
  /-- The first line break since the last character. -/
  firstBreak : Option (List Char)
  moreBreaks : List Char

namespace Folding

def empty : Folding := ⟨[], [], none, []⟩

def push (f : Folding) (chars : List Char) : Folding :=
  { f with text := chars.reverse ++ f.text }

/-- Settles the pending blanks: a single line feed becomes a blank, further ones stay. -/
def settle (f : Folding) : Folding :=
  let joined : List Char :=
    match f.firstBreak with
    | none => f.blanks
    | some ['\n'] => if f.moreBreaks.isEmpty then [' '] else f.moreBreaks
    | some first => first ++ f.moreBreaks
  ⟨joined.reverse ++ f.text, [], none, []⟩

/-- Takes blanks and line breaks. Blanks at the start of a line do not count; a tab among them
is refused where the column is still below `indent`. -/
def takeBlanks (indent : Nat) : Nat → Folding → Cursor → Option (Folding × Cursor)
  | 0, _, _ => none
  | fuel + 1, f, c =>
    match c.peek 0 with
    | none => some (f, c)
    | some x =>
      if isBlank x then
        if f.firstBreak.isSome then
          if x = '\t' ∧ c.column < indent then none else takeBlanks indent fuel f (c.advance 1)
        else takeBlanks indent fuel { f with blanks := f.blanks ++ [x] } (c.advance 1)
      else if isBreak x then
        let (taken, c) := c.takeBreak
        if f.firstBreak.isSome then
          takeBlanks indent fuel { f with moreBreaks := f.moreBreaks ++ taken } c
        else takeBlanks indent fuel { f with blanks := [], firstBreak := some taken } c
      else some (f, c)

end Folding

/-! ## Plain scalars -/

/-- Takes the content of a plain scalar up to the next blank. Inside brackets the flow indicators
end it too, and a colon in front of one is refused. -/
def takePlainRun (flow : Bool) : Nat → Folding → Cursor → Option (Folding × Cursor)
  | 0, _, _ => none
  | fuel + 1, f, c =>
    match c.peek 0 with
    | none => some (f, c)
    | some x =>
      if isBlank x ∨ isBreak x then some (f, c)
      else if flow ∧ x = ':' ∧ (c.peek 1).any (fun y => isFlowIndicator y || y = '?') then none
      else if (x = ':' ∧ c.blankOrEnd 1) ∨ (flow ∧ isFlowIndicator x) then some (f, c)
      else takePlainRun flow fuel (f.settle.push [x]) (c.advance 1)

/-- Takes a plain scalar. Its lines are indented at least by `indent` outside brackets. The flag
tells whether line breaks follow it. -/
def takePlain (flow : Bool) (indent : Nat) : Nat → Folding → Cursor →
    Option (List Char × Bool × Cursor)
  | 0, _, _ => none
  | fuel + 1, f, c =>
    if c.atDocumentMarker ∨ c.at? '#' then some (f.text.reverse, f.firstBreak.isSome, c)
    else do
      let (f, c) ← takePlainRun flow (c.rest.length + 1) f c
      if (c.peek 0).any (fun x => isBlank x || isBreak x) then
        let (f, c) ← f.takeBlanks indent (c.rest.length + 1) c
        if !flow ∧ c.column < indent then return (f.text.reverse, f.firstBreak.isSome, c)
        else takePlain flow indent fuel f c
      else return (f.text.reverse, f.firstBreak.isSome, c)

/-! ## Quoted scalars -/

def escapeChar? (c : Char) : Option Char :=
  match c with
  | '0' => some (Char.ofNat 0)
  | 'a' => some (Char.ofNat 7)
  | 'b' => some (Char.ofNat 8)
  | 't' => some '\t'
  | '\t' => some '\t'
  | 'n' => some '\n'
  | 'v' => some (Char.ofNat 11)
  | 'f' => some (Char.ofNat 12)
  | 'r' => some '\r'
  | 'e' => some (Char.ofNat 27)
  | ' ' => some ' '
  | '"' => some '"'
  | '/' => some '/'
  | '\\' => some '\\'
  | 'N' => some (Char.ofNat 0x85)
  | '_' => some (Char.ofNat 0xa0)
  | 'L' => some (Char.ofNat 0x2028)
  | 'P' => some (Char.ofNat 0x2029)
  | _ => none

def escapeDigits? (c : Char) : Option Nat :=
  match c with
  | 'x' => some 2
  | 'u' => some 4
  | 'U' => some 8
  | _ => none

def takeEscape (c : Cursor) : Option (Char × Cursor) := do
  let letter ← c.peek 0
  match escapeDigits? letter with
  | none => return (← escapeChar? letter, c.advance 1)
  | some count =>
    let digits := (c.rest.drop 1).take count
    let code ← Hex.natValue? digits
    if digits.length < count ∨ (0xd800 ≤ code ∧ code ≤ 0xdfff) ∨ 0x10ffff < code then none
    else return (Char.ofNat code, c.advance (1 + count))

/-- Takes quoted content up to a blank or the closing quote. The flag tells of an escaped line
break, after which the next line's blanks do not count. -/
def takeQuotedRun (quote : Char) : Nat → Folding → Cursor → Option (Folding × Bool × Cursor)
  | 0, _, _ => none
  | fuel + 1, f, c =>
    match c.peek 0 with
    | none => some (f, false, c)
    | some x =>
      if isBlank x ∨ isBreak x then some (f, false, c)
      else if quote = '\x27' ∧ x = '\x27' ∧ c.peek 1 = some '\x27' then
        takeQuotedRun quote fuel (f.push ['\x27']) (c.advance 2)
      else if x = quote then some (f, false, c)
      else if quote = '"' ∧ x = '\\' then
        if (c.peek 1).any isBreak then some (f, true, (c.advance 1).takeBreak.2)
        else
          match takeEscape (c.advance 1) with
          | some (y, c) => takeQuotedRun quote fuel (f.push [y]) c
          | none => none
      else takeQuotedRun quote fuel (f.push [x]) (c.advance 1)

def takeQuoted (quote : Char) : Nat → Folding → Cursor → Option (List Char × Cursor)
  | 0, _, _ => none
  | fuel + 1, f, c =>
    if c.atDocumentMarker ∨ c.rest.isEmpty then none
    else do
      let (f, escapedBreak, c) ← takeQuotedRun quote (c.rest.length + 1) f c
      if c.at? quote then return (f.text.reverse, c.advance 1)
      else
        let pending := if escapedBreak then { f with firstBreak := some [] } else f
        let (f, c) ← pending.takeBlanks 0 (c.rest.length + 1) c
        takeQuoted quote fuel f.settle c

/-! ## Block scalars -/

/-- What becomes of the line breaks at the end of a block scalar. -/
inductive Chomping
  | strip
  | clip
  | keep
deriving DecidableEq, Repr

def chomping? : Option Char → Option Chomping
  | some '+' => some .keep
  | some '-' => some .strip
  | _ => none

/-- An indentation digit; zero is refused. -/
def indentation? (c : Option Char) : Option (Option Nat) :=
  match c with
  | some x => if x.isDigit then (if x = '0' then none else some (some (x.toNat - '0'.toNat)))
    else some none
  | none => some none

/-- The indicators behind `|` or `>`, in either order. -/
def takeBlockHeader (c : Cursor) : Option (Chomping × Nat × Cursor) :=
  match chomping? (c.peek 0) with
  | some chomping => do
    let c := c.advance 1
    match ← indentation? (c.peek 0) with
    | some increment => return (chomping, increment, c.advance 1)
    | none => return (chomping, 0, c)
  | none => do
    match ← indentation? (c.peek 0) with
    | some increment =>
      let c := c.advance 1
      match chomping? (c.peek 0) with
      | some chomping => return (chomping, increment, c.advance 1)
      | none => return (.clip, increment, c)
    | none => return (.clip, 0, c)

/-- Takes empty lines and the indentation of the next line. With `indent = 0` the indentation is
not known yet; the widest one seen is returned. A tab in its place is refused. -/
def takeEmptyLines (indent : Nat) : Nat → List Char → Nat → Cursor →
    Option (List Char × Nat × Cursor)
  | 0, _, _, _ => none
  | fuel + 1, breaks, widest, c =>
    let spaces := (c.rest.takeWhile (· = ' ')).length
    let c := c.advance (if indent = 0 then spaces else min spaces (indent - c.column))
    let widest := max widest c.column
    if (indent = 0 ∨ c.column < indent) ∧ c.at? '\t' then none
    else if (c.peek 0).any isBreak then
      let (taken, c) := c.takeBreak
      takeEmptyLines indent fuel (breaks ++ taken) widest c
    else some (breaks, widest, c)

/-- Takes the lines of a block scalar. `lineBreak` is the break behind the last line taken and
`breaks` the empty lines after it; `afterBlank` tells whether that line began with a blank. -/
def takeBlockLines (fold : Bool) (indent : Nat) : Nat → List Char → List Char → List Char → Bool →
    Cursor → Option (List Char × List Char × List Char × Cursor)
  | 0, _, _, _, _, _ => none
  | fuel + 1, text, lineBreak, breaks, afterBlank, c =>
    if c.column ≠ indent ∨ c.rest.isEmpty then some (text, lineBreak, breaks, c)
    else do
      let blank := (c.peek 0).any isBlank
      let joint :=
        if fold ∧ lineBreak = ['\n'] ∧ !afterBlank ∧ !blank then
          (if breaks.isEmpty then [' '] else [])
        else lineBreak
      let (content, c) := c.takeWhile (!isBreak ·)
      let (lineBreak, c) := c.takeBreak
      let (more, _, c) ← takeEmptyLines indent (c.rest.length + 1) [] 0 c
      takeBlockLines fold indent fuel
        (content.reverse ++ (breaks.reverse ++ (joint.reverse ++ text))) lineBreak more blank c

/-- Takes a block scalar after its `|` or `>`; `parent` is the indentation around it. -/
def takeBlock (fold : Bool) (parent : Int) (c : Cursor) : Option (List Char × Cursor) := do
  let (chomping, increment, c) ← takeBlockHeader c
  let c := c.skipToLineEnd
  if !c.breakOrEnd then none
  else
    let c := c.takeBreak.2
    let fixed := if increment = 0 then 0 else (max parent 0).toNat + increment
    let (breaks, widest, c) ← takeEmptyLines fixed (c.rest.length + 1) [] 0 c
    let indent := if fixed = 0 then max (max widest (parent + 1).toNat) 1 else fixed
    let (text, lineBreak, breaks, c) ←
      takeBlockLines fold indent (c.rest.length + 1) [] [] breaks false c
    let ending := match chomping with
      | .strip => []
      | .clip => lineBreak
      | .keep => lineBreak ++ breaks
    return (text.reverse ++ ending, c)

/-! ## Plain scalars as values -/

def isNullText (s : String) : Bool :=
  s = "null" || s = "Null" || s = "NULL" || s = "~"

def boolOfText? (s : String) : Option Bool :=
  if s = "true" ∨ s = "True" ∨ s = "TRUE" then some true
  else if s = "false" ∨ s = "False" ∨ s = "FALSE" then some false
  else none

/-- The value of digits in a base; at least one digit and nothing else. -/
def digitsInBase? (base : Nat) (cs : List Char) : Option Nat :=
  if cs.isEmpty then none
  else cs.foldl (fun n c => n.bind fun n =>
    match Hex.value? c with
    | some d => if d < base then some (base * n + d) else none
    | none => none) (some 0)

/-- A natural number: an optional plus sign, then `0x`, `0o` or `0b` digits or decimal digits
without leading zeros. -/
def natOfText? (s : String) : Option Nat :=
  let unsigned := match s.toList with
    | '+' :: cs => cs
    | cs => cs
  match unsigned with
  | '0' :: 'x' :: cs => digitsInBase? 16 cs
  | '0' :: 'o' :: cs => digitsInBase? 8 cs
  | '0' :: 'b' :: cs => digitsInBase? 2 cs
  | '0' :: _ :: _ => none
  | cs => digitsInBase? 10 cs

end Downlink.Yaml
