import Downlink.Text.Yaml.Token

/-!
# Nodes of YAML

A document is a tree of scalars, sequences and mappings. An alias stays an alias: it names the
place of an anchored node, and following it is one look-up in the document's table.
-/

namespace Downlink.Yaml

inductive Node
  | scalar (tag : Option Tag) (style : ScalarStyle) (text : String)
  | sequence (tag : Option Tag) (items : List Node)
  | mapping (tag : Option Tag) (entries : List (Node × Node))
  /-- The node at a place in the table of anchors. -/
  | alias (place : Nat)
deriving Inhabited

namespace Node

def empty : Node := .scalar none .plain ""

end Node

/-- Names of anchors while a document is read. A name gets the number of names before it, and a
number refers to the node that took it last. -/
structure Anchors where
  numbers : List (String × Nat)
  /-- For each number the node that holds it, by the order in which nodes begin. -/
  holders : List (Nat × Nat)
  /-- Anchored nodes by the order in which they begin. -/
  nodes : List (Nat × Node)
  begun : Nat

namespace Anchors

def none : Anchors := ⟨[], [], [], 0⟩

def begin? (a : Anchors) (name : Option String) : Anchors × Option Nat :=
  match name with
  | .none => (a, .none)
  | some name =>
    let number := a.numbers.length
    let numbers := (name, number) :: a.numbers.filter (·.1 ≠ name)
    ({ a with numbers, holders := (number, a.begun) :: a.holders, begun := a.begun + 1 },
      some a.begun)

def finish (a : Anchors) (begun : Option Nat) (node : Node) : Anchors :=
  match begun with
  | .none => a
  | some order => { a with nodes := (order, node) :: a.nodes }

end Anchors

/-- A document: its root and the nodes that aliases refer to. -/
structure Document where
  root : Node
  anchors : Anchors

/-- The node itself, or the one that an alias refers to. -/
def Document.resolve (d : Document) (n : Node) : Node :=
  match n with
  | .alias number =>
    match d.anchors.holders.lookup number with
    | some order => (d.anchors.nodes.lookup order).getD .empty
    | none => .empty
  | n => n

/-! ## Reading nodes -/

/-- What is left of the tokens, and what was learned on the way. -/
structure Reading where
  tokens : List Token
  anchors : Anchors
  /-- Tag handles and what they stand for. -/
  handles : List (String × Tag)

namespace Reading

def peek (r : Reading) : Token :=
  r.tokens.headD .streamEnd

def skip (r : Reading) : Reading :=
  { r with tokens := r.tokens.drop 1 }

/-- An anchor and a tag in front of a node, in either order. -/
def takeProperties (r : Reading) : Option String × Option (String × Tag) × Reading :=
  match r.tokens with
  | .anchor name :: .tag handle suffix :: rest =>
    (some name, some (handle, suffix), { r with tokens := rest })
  | .tag handle suffix :: .anchor name :: rest =>
    (some name, some (handle, suffix), { r with tokens := rest })
  | .anchor name :: rest => (some name, none, { r with tokens := rest })
  | .tag handle suffix :: rest => (none, some (handle, suffix), { r with tokens := rest })
  | _ => (none, none, r)

/-- The full tag; a handle that no directive declares is refused. -/
def fullTag? (r : Reading) : Option (String × Tag) → Option (Option Tag)
  | none => some none
  | some ("", suffix) => some (some suffix)
  | some (handle, suffix) => (r.handles.lookup handle).map fun uri => some (uri.append suffix)

def sequenceOf (tag : Option Tag) : List Node × Reading → Node × Reading
  | (items, r) => (.sequence tag items, r)

def mappingOf (tag : Option Tag) : List (Node × Node) × Reading → Node × Reading
  | (entries, r) => (.mapping tag entries, r)

/-- A node that is left out may still have an anchor or a tag. -/
def propertiesOnly (anchored : Bool) (tag : Option Tag) (r : Reading) :
    Option (Node × Reading) :=
  if anchored ∨ tag.isSome then some (.scalar tag .plain "", r) else none

mutual

/-- Reads a node. Block collections are allowed only in block context; an indentless sequence only
as a mapping's key or value. -/
def node (block indentless : Bool) : Nat → Reading → Option (Node × Reading)
  | 0, _ => none
  | fuel + 1, r =>
    match r.peek with
    | .alias name => do
      let number ← r.anchors.numbers.lookup name
      return (.alias number, r.skip)
    | _ => do
      let (anchor, tag, r) := r.takeProperties
      let tag ← r.fullTag? tag
      let (anchors, begun) := r.anchors.begin? anchor
      let r := { r with anchors }
      let (n, r) ← body block indentless anchor.isSome tag fuel r
      return (n, { r with anchors := r.anchors.finish begun n })

def body (block indentless anchored : Bool) (tag : Option Tag) :
    Nat → Reading → Option (Node × Reading)
  | 0, _ => none
  | fuel + 1, r =>
    match r.peek with
    | .scalar style text => some (.scalar tag style text, r.skip)
    | .flowSequenceStart => (flowItems true fuel r.skip).map (sequenceOf tag)
    | .flowMappingStart => (flowEntries true fuel r.skip).map (mappingOf tag)
    | .blockSequenceStart =>
      if block then (blockItems fuel r.skip).map (sequenceOf tag)
      else propertiesOnly anchored tag r
    | .blockMappingStart =>
      if block then (blockEntries fuel r.skip).map (mappingOf tag)
      else propertiesOnly anchored tag r
    | .blockEntry =>
      if indentless then (indentlessItems fuel r).map (sequenceOf tag)
      else propertiesOnly anchored tag r
    | _ => propertiesOnly anchored tag r

def blockItems : Nat → Reading → Option (List Node × Reading)
  | 0, _ => none
  | fuel + 1, r =>
    match r.peek with
    | .blockEntry => do
      let r := r.skip
      let (item, r) ← match r.peek with
        | .blockEntry | .blockEnd => some (Node.empty, r)
        | _ => node true false fuel r
      let (items, r) ← blockItems fuel r
      return (item :: items, r)
    | .blockEnd => some ([], r.skip)
    | _ => none

/-- Reads the entries of a sequence that stands at the column of the mapping around it. -/
def indentlessItems : Nat → Reading → Option (List Node × Reading)
  | 0, _ => none
  | fuel + 1, r =>
    match r.peek with
    | .blockEntry => do
      let r := r.skip
      let (item, r) ← match r.peek with
        | .blockEntry | .key | .value | .blockEnd => some (Node.empty, r)
        | _ => node true false fuel r
      let (items, r) ← indentlessItems fuel r
      return (item :: items, r)
    | _ => some ([], r)

def blockEntries : Nat → Reading → Option (List (Node × Node) × Reading)
  | 0, _ => none
  | fuel + 1, r =>
    match r.peek with
    | .key => do
      let r := r.skip
      let (key, r) ← match r.peek with
        | .key | .value | .blockEnd => some (Node.empty, r)
        | _ => node true true fuel r
      let (value, r) ← match r.peek with
        | .value =>
          let r := r.skip
          match r.peek with
          | .key | .value | .blockEnd => some (Node.empty, r)
          | _ => node true true fuel r
        | _ => some (Node.empty, r)
      let (entries, r) ← blockEntries fuel r
      return ((key, value) :: entries, r)
    | .blockEnd => some ([], r.skip)
    | _ => none

def separator (first : Bool) (r : Reading) : Option Reading :=
  if first then some r
  else match r.peek with
    | .flowEntry => some r.skip
    | _ => none

/-- Reads the entries of a flow sequence and its end. An entry with a key is a mapping. -/
def flowItems (first : Bool) : Nat → Reading → Option (List Node × Reading)
  | 0, _ => none
  | fuel + 1, r =>
    match r.peek with
    | .flowSequenceEnd => some ([], r.skip)
    | _ => do
      let r ← separator first r
      match r.peek with
      | .flowSequenceEnd => return ([], r.skip)
      | .key =>
        let (pair, r) ← flowPair fuel r.skip
        let (items, r) ← flowItems false fuel r
        return (.mapping none [pair] :: items, r)
      | _ =>
        let (item, r) ← node false false fuel r
        let (items, r) ← flowItems false fuel r
        return (item :: items, r)

/-- Reads the key and value of a single pair in a flow sequence. Where the key is left out the
token behind it counts as part of it. -/
def flowPair : Nat → Reading → Option ((Node × Node) × Reading)
  | 0, _ => none
  | fuel + 1, r => do
    let (key, r) ← match r.peek with
      | .value | .flowEntry | .flowSequenceEnd => some (Node.empty, r.skip)
      | _ => node false false fuel r
    let (value, r) ← match r.peek with
      | .value =>
        let r := r.skip
        match r.peek with
        | .flowEntry | .flowSequenceEnd => some (Node.empty, r)
        | _ => node false false fuel r
      | _ => some (Node.empty, r)
    return ((key, value), r)

/-- Reads the entries of a flow mapping and its end. An entry without a key token is a key whose
value is left out. -/
def flowEntries (first : Bool) : Nat → Reading → Option (List (Node × Node) × Reading)
  | 0, _ => none
  | fuel + 1, r =>
    match r.peek with
    | .flowMappingEnd => some ([], r.skip)
    | _ => do
      let r ← separator first r
      match r.peek with
      | .flowMappingEnd => return ([], r.skip)
      | .key =>
        let r := r.skip
        let (key, r) ← match r.peek with
          | .value | .flowEntry | .flowMappingEnd => some (Node.empty, r)
          | _ => node false false fuel r
        let (value, r) ← match r.peek with
          | .value =>
            let r := r.skip
            match r.peek with
            | .flowEntry | .flowMappingEnd => some (Node.empty, r)
            | _ => node false false fuel r
          | _ => some (Node.empty, r)
        let (entries, r) ← flowEntries false fuel r
        return ((key, value) :: entries, r)
      | _ =>
        let (key, r) ← node false false fuel r
        let (entries, r) ← flowEntries false fuel r
        return ((key, .empty) :: entries, r)

end

/-! ## Documents -/

def standardHandles : List (String × Tag) :=
  [("!", .named "!"), ("!!", .named "tag:yaml.org,2002:")]

/-- Takes the directives in front of a document: one version at most, each handle once. -/
def takeDirectives : Bool → List (String × Tag) → List Token →
    Option (List (String × Tag) × List Token)
  | versionSeen, handles, .versionDirective major minor :: rest =>
    if versionSeen ∨ major ≠ 1 ∨ (minor ≠ 1 ∧ minor ≠ 2) then none
    else takeDirectives true handles rest
  | versionSeen, handles, .tagDirective handle uri :: rest =>
    if (handles.lookup handle).isSome then none
    else takeDirectives versionSeen ((handle, uri) :: handles) rest
  | _, handles, rest => some (handles ++ standardHandles, rest)

/-- The content of a document behind its marker; an empty one is an empty scalar. -/
def content (r : Reading) : Option (Node × Reading) :=
  match r.peek with
  | .versionDirective .. | .tagDirective .. | .documentStart | .documentEnd | .streamEnd =>
    some (.empty, r)
  | _ => node true false (4 * r.tokens.length + 8) r

/-- The first document; none at the end of the stream. It begins with a marker, behind directives
if there are any, or without both with its root. -/
def document? (tokens : List Token) : Option (Option (Node × Reading)) := do
  let (handles, rest) ← takeDirectives false [] tokens
  match rest with
  | .documentStart :: rest => (content ⟨rest, .none, handles⟩).map some
  | rest =>
    if rest.length < tokens.length then none
    else if rest = [.streamEnd] then some none
    else (node true false (4 * rest.length + 8) ⟨rest, .none, handles⟩).map some

end Reading

/-- Reads a text that holds one document at most. A text without one is an empty scalar. -/
def Document.parse? (text : String) : Option Document := do
  match ← Reading.document? (← tokens? text) with
  | none => return ⟨.empty, .none⟩
  | some (root, r) =>
    match r.tokens.dropWhile (· = .documentEnd) with
    | [.streamEnd] => return ⟨root, r.anchors⟩
    | _ => none

end Downlink.Yaml
