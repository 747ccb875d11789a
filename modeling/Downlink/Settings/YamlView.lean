import Downlink.Settings
import Downlink.Text.Yaml.Node

/-!
# YAML settings

Numbers and truth values are plain scalars; any scalar is a text. A node left empty is a list
without elements and a mapping without entries. A choice is a scalar with its name, or a node whose
tag is its name.
-/

namespace Downlink.Settings

open Yaml (Node Document ScalarStyle Tag)

/-- Whether a scalar is read by its form: a plain one, or a literal one that is tagged so. -/
def readsAs (kind : String) (tag : Option Tag) (style : ScalarStyle) : Bool :=
  style = .plain || (style = .literal && tag = some (.named ("tag:yaml.org,2002:" ++ kind)))

def scalarText? : Node → Option String
  | .scalar _ _ text => some text
  | _ => none

def isEmptyNode : Node → Bool
  | .scalar _ .plain "" => true
  | _ => false

/-- What an optional node says: nothing, itself, or neither when it is tagged as nothing and is
something. -/
def presentNode? : Node → Option (Option Node)
  | .scalar tag .plain text =>
    match tag with
    | none =>
      some (if text = "" ∨ Yaml.isNullText text then none else some (.scalar tag .plain text))
    | some (.named "tag:yaml.org,2002:null") => if Yaml.isNullText text then some none else none
    | some _ => some (some (.scalar tag .plain text))
  | node => some (some node)

/-- The name in a tag of the document's own: what follows the exclamation mark. -/
def tagName? (tag : Option Tag) : Option String :=
  match tag with
  | some (.named tag) =>
    match tag.toList with
    | ['!'] => some "!"
    | '!' :: name => some (String.ofList name)
    | _ => none
  | _ => none

/-- A choice by its tag or, without one of the document's own, by its text. -/
def choiceNode? : Node → Option (String × Option Node)
  | .scalar tag style text =>
    match tagName? tag with
    | some name => some (name, some (.scalar none style text))
    | none => some (text, none)
  | .sequence tag items => (tagName? tag).map (·, some (.sequence none items))
  | .mapping tag entries => (tagName? tag).map (·, some (.mapping none entries))
  | .alias _ => none

def NodeView.yaml (d : Document) : NodeView Node where
  natural? node :=
    match d.resolve node with
    | .scalar tag style text => if readsAs "int" tag style then Yaml.natOfText? text else none
    | _ => none
  boolean? node :=
    match d.resolve node with
    | .scalar tag style text => if readsAs "bool" tag style then Yaml.boolOfText? text else none
    | _ => none
  text? node := scalarText? (d.resolve node)
  items? node :=
    match d.resolve node with
    | .sequence _ items => some items
    | node => if isEmptyNode node then some [] else none
  entries? _ node :=
    match d.resolve node with
    | .mapping _ entries =>
      entries.mapM fun (key, value) => (scalarText? (d.resolve key)).map (·, value)
    | node => if isEmptyNode node then some [] else none
  present? node := presentNode? (d.resolve node)
  choice? node := choiceNode? (d.resolve node)
  isBlank node :=
    match d.resolve node with
    | .scalar _ .plain text => text = "" || Yaml.isNullText text
    | _ => false

end Downlink.Settings
