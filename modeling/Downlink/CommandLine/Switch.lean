/-!
# Switches

A level of a command line is a list of arguments: switches, with or without a value, and words.
A value may be attached to its switch (`--rate=5`, `-o=x`, `-ox`) or be the next argument, as long
as that does not look like a switch itself. Short switches can stand together (`-vc x`). Behind
`--` everything is a word.

* `Switch.scan`: the arguments of a level, read from left to right. The first fault counts.
-/

namespace Downlink.CommandLine

/-- Why a command line is not carried out. -/
inductive Stop
  /-- It is not well formed. -/
  | misuse
  /-- It asks how the program is used. -/
  | help
  /-- It asks for the version of the program. -/
  | version
deriving DecidableEq, Repr

/-- What a switch does to the choices made so far, which are of a type of the program. -/
inductive Action (σ : Type)
  /-- Makes a choice, or stops everything. -/
  | flag (apply : σ → Except Stop σ)
  /-- Makes a choice from a value, if the value is acceptable. -/
  | value (apply : String → σ → Option σ)

/-- A switch: its names and what it does. -/
structure Switch (σ : Type) where
  long : String
  short : Option Char
  /-- Whether it may be given several times. -/
  repeatable : Bool
  action : Action σ

/-- What has been read of a level: the choices, the switches that made them, and the words, the
latest first. -/
structure Scan (σ : Type) where
  choices : σ
  given : List String
  words : List String

namespace Scan

variable {σ : Type}

/-- Nothing read yet. -/
def start (choices : σ) : Scan σ := ⟨choices, [], []⟩

def word (s : Scan σ) (text : String) : Scan σ :=
  { s with words := text :: s.words }

end Scan

namespace Switch

variable {σ : Type}

/-- Whether an argument cannot be a value or a word: it begins like a switch. -/
def isSwitch (argument : String) : Bool :=
  argument.startsWith "-" && argument ≠ "-"

/-- Notes that a switch is given. Most may be given only once. -/
def note (switch : Switch σ) (s : Scan σ) : Except Stop (Scan σ) :=
  if !switch.repeatable && s.given.contains switch.long then .error .misuse
  else .ok { s with given := switch.long :: s.given }

def raise (switch : Switch σ) (apply : σ → Except Stop σ) (s : Scan σ) : Except Stop (Scan σ) := do
  let choices ← apply s.choices
  switch.note { s with choices }

def give (switch : Switch σ) (apply : String → σ → Option σ) (s : Scan σ) (value : String) :
    Except Stop (Scan σ) :=
  match apply value s.choices with
  | some choices => switch.note { s with choices }
  | none => .error .misuse

inductive Demand (σ : Type)
  | done (s : Scan σ)
  /-- The next argument is the value of the switch. -/
  | next (take : String → Except Stop (Scan σ))

/-- Reads a long switch, perhaps with an attached value. -/
def readLong (switches : List (Switch σ)) (s : Scan σ) (name : String) (attached : Option String) :
    Except Stop (Demand σ) :=
  match switches.find? (·.long = name) with
  | none => .error .misuse
  | some switch =>
    match switch.action, attached with
    | .flag apply, none => .done <$> switch.raise apply s
    | .flag _, some _ => .error .misuse
    | .value apply, some value => .done <$> switch.give apply s value
    | .value apply, none => .ok (.next (switch.give apply s))

/-- Reads short switches that stand together. The first with a value takes what is left. -/
def readShort (switches : List (Switch σ)) (s : Scan σ) : List Char → Except Stop (Demand σ)
  | [] => .ok (.done s)
  | c :: rest =>
    match switches.find? (·.short = some c) with
    | none => .error .misuse
    | some switch =>
      match switch.action, rest with
      | .flag apply, rest => do readShort switches (← switch.raise apply s) rest
      | .value apply, [] => .ok (.next (switch.give apply s))
      | .value apply, '=' :: value => .done <$> switch.give apply s (String.ofList value)
      | .value apply, value => .done <$> switch.give apply s (String.ofList value)

def readSwitch (switches : List (Switch σ)) (argument : String) (s : Scan σ) :
    Except Stop (Demand σ) :=
  match argument.toList with
  | '-' :: '-' :: long =>
    let name := String.ofList (long.takeWhile (· ≠ '='))
    let attached := (long.dropWhile (· ≠ '=')).tail?.map String.ofList
    readLong switches s name attached
  | _ :: short => readShort switches s short
  | [] => .error .misuse

/-- Reads the arguments of a level up to the first that `ends` it, which is left with those behind
it. No level has more than `limit` words. -/
def scan (switches : List (Switch σ)) (limit : Option Nat) (ends : String → Bool) (s : Scan σ) :
    List String → Except Stop (Scan σ × List String)
  | [] => .ok (s, [])
  | "--" :: rest =>
    let s := rest.foldl Scan.word s
    if limit.any (· < s.words.length) then .error .misuse else .ok (s, [])
  | argument :: rest =>
    if isSwitch argument then
      match readSwitch switches argument s, rest with
      | .error stop, _ => .error stop
      | .ok (.done s), rest => scan switches limit ends s rest
      | .ok (.next _), [] => .error .misuse
      | .ok (.next take), value :: rest =>
        if isSwitch value then .error .misuse
        else take value >>= fun s => scan switches limit ends s rest
    else if ends argument then .ok (s, argument :: rest)
    else if limit.any (· ≤ s.words.length) then .error .misuse
    else scan switches limit ends (s.word argument) rest

end Switch

end Downlink.CommandLine
