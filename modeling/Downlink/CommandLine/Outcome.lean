import Downlink.Assignment
import Downlink.CommandLine.Switch
import Downlink.Listener

/-!
# Outcomes

How the program ends: what it has written, what it says to the operator, and its exit code.
-/

namespace Downlink.CommandLine

/-! ## Failures -/

/-- Why a command failed: what it could not do, and the causes underneath. -/
structure Failure where
  message : String
  causes : List String
deriving DecidableEq, Repr

namespace Failure

def ofLink (e : LinkError) : Failure :=
  ⟨e.message, e.source.toList⟩

def ofAssignment (e : AssignmentError) : Failure :=
  ⟨e.message, e.source.toList⟩

def forPurpose (purpose : String) (e : LinkError) : Failure :=
  ⟨purpose, e.message :: e.source.toList⟩

def ofSystem (purpose : String) (e : SystemError) : Failure :=
  ⟨purpose, [e.message]⟩

/-- A refusal that is reported as it is. -/
def ofRefusal (e : SystemError) : Failure :=
  ⟨e.message, []⟩

/-- A text behind a heading, its other lines moved in as far. -/
def indented (heading text : String) : String :=
  let blanks := String.ofList (List.replicate heading.length ' ')
  heading ++ ("\n" ++ blanks).intercalate (text.splitOn "\n")

def numbered (number : Nat) : List String → List String
  | [] => []
  | cause :: rest =>
    let digits := toString number
    let blanks := String.ofList (List.replicate (5 - digits.length) ' ')
    indented (blanks ++ digits ++ ": ") cause :: numbered (number + 1) rest

/-- What is said to the operator. A single cause goes without a number. -/
def text (f : Failure) : String :=
  let causes := match f.causes with
    | [cause] => [indented "    " cause]
    | causes => numbered 0 causes
  let lines := if causes.isEmpty then [] else ["", "Caused by:"] ++ causes
  "\n".intercalate (("Error: " ++ f.message) :: lines) ++ "\n"

end Failure

/-! ## Outcomes -/

inductive Outcome
  /-- Everything is done. Each text has the millisecond in which it is written. -/
  | finished (output : List (Nat × String))
  /-- A frame has been sent. -/
  | sent (target : Address) (frame : Bytes)
  /-- Datagrams are to be received from now on. -/
  | receiving (listener : Listener)
  | failed (failure : Failure)
  | stopped (stop : Stop)

def versionText : String := "groundlink 0.1.0\n"

def usageText : String :=
  "Usage: groundlink [--json] [-v] [-c CONFIG] COMMAND\n\n"
    ++ "  listen [-b ADDRESS] [--rate N] [--count N]\n"
    ++ "  replay PATH [--speed X | --fast]\n"
    ++ "  capture -o FILE [-b ADDRESS] [-d SECONDS]\n"
    ++ "  encode [FIELD=VALUE]... [--send ADDRESS]\n"
    ++ "  schema\n"

namespace Outcome

def printed (texts : List String) : Outcome :=
  .finished (texts.map fun text => (0, text))

/-- The exit code; none while datagrams are received. -/
def exitCode : Outcome → Option Nat
  | .finished _ | .sent .. => some 0
  | .receiving _ => none
  | .failed _ => some 1
  | .stopped .misuse => some 2
  | .stopped .help | .stopped .version => some 0

/-- What is written, each text with the millisecond in which it is. -/
def output : Outcome → List (Nat × String)
  | .finished output => output
  | .stopped .help => [(0, usageText)]
  | .stopped .version => [(0, versionText)]
  | .sent .. | .receiving _ | .failed _ | .stopped .misuse => []

def outputText (o : Outcome) : String :=
  String.join (o.output.map Prod.snd)

def note : Outcome → String
  | .sent target frame =>
    "sent " ++ toString frame.length ++ " bytes to " ++ target.text ++ "\n"
  | .failed failure => failure.text
  | .stopped .misuse => usageText
  | .finished _ | .receiving _ | .stopped .help | .stopped .version => ""

def ofExcept : Except Failure Outcome → Outcome
  | .ok outcome => outcome
  | .error failure => .failed failure

end Outcome

end Downlink.CommandLine
