import Downlink.Settings
import Downlink.Text.Json

/-!
# JSON settings

A node with declared names is an object, or an array that holds the values in the order of
declaration and may end early. A choice is its name, or an object with that one name. Nothing is
converted: a number in quotes is a text.
-/

namespace Downlink.Settings

/-- The members of an object, or the elements of an array under the declared names. -/
def jsonEntries? (declared : List String) : Json → Option (List (String × Json))
  | .object members => some members
  | .array items => if items.length ≤ declared.length then some (declared.zip items) else none
  | _ => none

def NodeView.json : NodeView Json where
  natural?
    | .int n => if 0 ≤ n then some n.toNat else none
    | _ => none
  boolean?
    | .bool b => some b
    | _ => none
  text?
    | .string s => some s
    | _ => none
  items?
    | .array items => some items
    | _ => none
  entries? := jsonEntries?
  present?
    | .null => some none
    | node => some (some node)
  choice?
    | .string name => some (name, none)
    | .object [(name, value)] => some (name, some value)
    | _ => none
  isBlank
    | .null => true
    | _ => false

end Downlink.Settings
