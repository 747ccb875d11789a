import Downlink.Config
import Downlink.Layout.Pack
import Downlink.Text.Blank

/-!
# Assignments

A frame can be written down as assignments such as `Az=-1.6`. A field without one is zero, and the
last of several to one field counts.
-/

namespace Downlink

inductive AssignmentError
  | malformed (text : String)
  | invalidNumber (field : String) (cause : NumeralError)
  /-- A name that the layout does not report. -/
  | unknownField (field : String)
  | notPacked (cause : FieldError)

namespace AssignmentError

def message : AssignmentError → String
  | .malformed text => "expected FIELD=VALUE, got '" ++ text ++ "'"
  | .invalidNumber field _ => "invalid number for field '" ++ field ++ "'"
  | .unknownField field => "unknown field '" ++ field ++ "'"
  | .notPacked cause => cause.message

/-- The message of the error underneath, if there is one. -/
def source : AssignmentError → Option String
  | .invalidNumber _ cause => some cause.message
  | _ => none

end AssignmentError

namespace Assignment

/-- What stands in front of the first equals sign and behind it. -/
def split? (text : String) : Option (String × String) :=
  let cs := text.toList
  match cs.dropWhile (· ≠ '=') with
  | _ :: value => some (String.ofList (cs.takeWhile (· ≠ '=')), String.ofList value)
  | [] => none

/-- Reads an assignment. Blanks around the name and around the number do not count. -/
def parse (text : String) : Except AssignmentError (String × Binary64) :=
  match split? text with
  | none => .error (.malformed text)
  | some (name, value) =>
    match Binary64.ofText? (Text.trim value) with
    | .error cause => .error (.invalidNumber name cause)
    | .ok x => .ok (Text.trim name, x)

/-- Zero for every field of a record. -/
def zeros (l : Layout) : List (String × Binary64) :=
  l.reported.map fun f => (f.name, .zero false)

/-- Sets the value of a field where it stands; none if there is no such field. -/
def set? (name : String) (x : Binary64) :
    List (String × Binary64) → Option (List (String × Binary64))
  | [] => none
  | (field, old) :: rest =>
    if field = name then some ((field, x) :: rest) else (set? name x rest).map ((field, old) :: ·)

def apply (values : List (String × Binary64)) (text : String) :
    Except AssignmentError (List (String × Binary64)) := do
  let (name, x) ← parse text
  match set? name x values with
  | some values => return values
  | none => throw (.unknownField name)

def payload (l : Layout) (texts : List String) : Except AssignmentError Bytes := do
  let values ← texts.foldlM apply (zeros l)
  (l.packValues values).mapError .notPacked

def frame (l : Layout) (m : Markers) (texts : List String) : Except AssignmentError Bytes :=
  (payload l texts).map m.frame

end Assignment

end Downlink
