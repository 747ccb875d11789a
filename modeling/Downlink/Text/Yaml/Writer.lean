import Downlink.Text.Json
import Downlink.Text.Yaml.Cursor

/-!
# Writing YAML

JSON values in YAML's flow notation. It is JSON's own, but for the characters that a YAML text must
not hold, which are written as escapes.
-/

namespace Downlink.Yaml

def escape (c : Char) : List Char :=
  if c = '"' then ['\\', '"']
  else if c = '\\' then ['\\', '\\']
  else if isPrintable c && !isBreak c && c ≠ '\t' then [c]
  else '\\' :: 'U' :: (Hex.ofNat 8 c.toNat).toList

def quote (s : String) : String :=
  String.ofList ('"' :: s.toList.flatMap escape ++ ['"'])

mutual

def flowText : Json → String
  | .string s => quote s
  | .array items => "[" ++ ", ".intercalate (flowItems items) ++ "]"
  | .object members => "\x7b" ++ ", ".intercalate (flowMembers members) ++ "\x7d"
  | .null => Json.text .null
  | .brokenString => Json.text .brokenString
  | .brokenObject => Json.text .brokenObject
  | .bool b => Json.text (.bool b)
  | .int n => Json.text (.int n)
  | .number x => Json.text (.number x)

def flowItems : List Json → List String
  | [] => []
  | item :: rest => flowText item :: flowItems rest

def flowMembers : List (String × Json) → List String
  | [] => []
  | (name, value) :: rest => (quote name ++ ": " ++ flowText value) :: flowMembers rest

end

end Downlink.Yaml
