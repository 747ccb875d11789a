import Downlink.CommandLine.Choices
import Downlink.LogLevel

/-!
# Invocations

What a command line asks for. Some switches stand in front of the command or behind it; behind it
they count more, and the path of the configuration can also come from the environment.

* `Invocation.ofArguments`: reads a command line.
-/

namespace Downlink.CommandLine

inductive Command
  /-- Receive and decode, perhaps elsewhere than configured, at another rate, or only so many
  records. -/
  | listen (bind : Option Address) (rate : Option UInt32) (count : Option UInt64)
  | replay (path : String) (pace : Pace)
  /-- Record datagrams to a file for some seconds. -/
  | capture (output : String) (bind : Option Address) (seconds : UInt64)
  /-- Make a frame from assignments, to be printed or to be sent. -/
  | encode (assignments : List String) (target : Option Address)
  | schema
deriving DecidableEq, Repr

structure Invocation where
  json : Bool
  logLevel : LogLevel
  configPath : Option String
  command : Command
deriving DecidableEq, Repr

/-! ## Commands -/

/-- How a command is written: the switches behind it, the number of words at most, and the command
that they make. -/
structure Form where
  switches : List (Switch Choices)
  maxWords : Option Nat
  command? : Choices → List String → Option Command

namespace Form

def listen : Form where
  switches := Choices.listening
  maxWords := some 0
  command? c _ := some (.listen c.bind c.rate c.count)

def replay : Form where
  switches := Choices.replaying
  maxWords := some 1
  command? c words := do
    let path ← words.head? >>= path?
    return .replay path (← c.pace?)

def capture : Form where
  switches := Choices.capturing
  maxWords := some 0
  command? c _ := c.output.map fun output =>
    .capture output c.bind (c.duration.getD Choices.defaultDuration)

def encode : Form where
  switches := Choices.encoding
  maxWords := none
  command? c words := some (.encode words c.target)

def schema : Form where
  switches := []
  maxWords := some 0
  command? _ _ := some .schema

def named : List (String × Form) :=
  [("listen", listen), ("replay", replay), ("capture", capture), ("encode", encode),
   ("schema", schema)]

end Form

/-! ## Command lines -/

namespace Invocation

/-- The path of the configuration, from behind the command, from in front of it, or from the
environment. What the environment has to say cannot be empty where it is asked. -/
def configPathFrom (environment : Option String) (front behind : Choices) :
    Except Stop (Option String) :=
  if environment = some "" ∧ (front.configPath.isNone ∨ behind.configPath.isNone) then
    .error .misuse
  else .ok ((behind.configPath.or front.configPath).or environment)

def ofForm (environment : Option String) (front : Choices) (form : Form) (arguments : List String) :
    Except Stop Invocation := do
  let (behind, _) ← Switch.scan (Choices.common ++ form.switches) form.maxWords (fun _ => false)
    (.start .empty) arguments
  match form.command? behind.choices behind.words.reverse with
  | none => throw .misuse
  | some command =>
    let verbosity :=
      if behind.choices.verbosity = 0 then front.verbosity else behind.choices.verbosity
    return {
      json := front.json || behind.choices.json
      logLevel := .ofCount verbosity
      configPath := ← configPathFrom environment front behind.choices
      command }

/-- Whether these arguments ask how the program, or one of its commands, is used. -/
def asksForHelp (arguments : List String) : Bool :=
  match arguments with
  | ["help"] => true
  | ["help", name] => (Form.named.lookup name).isSome
  | _ => false

/-- Reads a command line, given the path that the environment names. -/
def ofArguments (environment : Option String) (arguments : List String) :
    Except Stop Invocation := do
  let (front, rest) ← Switch.scan Choices.leading (some 0) (fun _ => true) (.start .empty) arguments
  match rest with
  | [] => throw .misuse
  | name :: behind =>
    match Form.named.lookup name with
    | some form => ofForm environment front.choices form behind
    | none => throw (if asksForHelp rest then .help else .misuse)

def inputs (i : Invocation) : List String :=
  match i.command with
  | .replay path _ => i.configPath.toList ++ [path]
  | _ => i.configPath.toList

end Invocation

end Downlink.CommandLine
