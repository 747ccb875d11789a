import Downlink.Address
import Downlink.Binary64.Decimal
import Downlink.CommandLine.Switch

/-!
# Choices

The switches of the program, what their values look like, and what they choose. The command decides
which switches may stand behind it.
-/

namespace Downlink.CommandLine

inductive Pace
  | times (speed : Binary64)
  | unpaced
deriving DecidableEq, Repr

/-! ## Values -/

def digits? (cs : List Char) : Option Nat :=
  if cs.isEmpty ∨ !cs.all Char.isDigit then none
  else some (Binary64.digitsValue cs)

def integer? (text : String) : Option Int :=
  match text.toList with
  | '-' :: cs => (digits? cs).map fun n => -n
  | '+' :: cs => (digits? cs).map Int.ofNat
  | cs => (digits? cs).map Int.ofNat

/-- A 32-bit number; zero may have a minus. -/
def word32? (text : String) : Option UInt32 := do
  let n ← integer? text
  if 0 ≤ n ∧ n < UInt32.size then return UInt32.ofNat n.toNat else none

/-- A 64-bit number, without a minus. -/
def word64? (text : String) : Option UInt64 := do
  let n ← if text.startsWith "-" then none else integer? text
  if n < UInt64.size then return UInt64.ofNat n.toNat else none

/-- A path; it cannot be empty. -/
def path? (text : String) : Option String :=
  if text.isEmpty then none else some text

/-- A number as text, of the precision that speeds have. -/
def speed? (text : String) : Option Binary64 :=
  (Binary64.ofText? text).toOption

/-! ## Switches -/

structure Choices where
  json : Bool
  verbosity : Nat
  configPath : Option String
  bind : Option Address
  rate : Option UInt32
  count : Option UInt64
  speed : Option Binary64
  fast : Bool
  output : Option String
  duration : Option UInt64
  target : Option Address

namespace Choices

/-- Nothing chosen. -/
def empty : Choices :=
  ⟨false, 0, none, none, none, none, none, false, none, none, none⟩

def common : List (Switch Choices) :=
  [⟨"json", none, false, .flag fun c => .ok { c with json := true }⟩,
   ⟨"verbose", some 'v', true, .flag fun c => .ok { c with verbosity := c.verbosity + 1 }⟩,
   ⟨"config", some 'c', false, .value fun text c =>
     (path? text).map fun path => { c with configPath := some path }⟩,
   ⟨"help", some 'h', false, .flag fun _ => .error .help⟩]

def leading : List (Switch Choices) :=
  common ++ [⟨"version", some 'V', false, .flag fun _ => .error .version⟩]

def bindSwitch : Switch Choices :=
  ⟨"bind", some 'b', false, .value fun text c =>
    (Address.ofText? text).map fun address => { c with bind := some address }⟩

def listening : List (Switch Choices) :=
  [bindSwitch,
   ⟨"rate", none, false, .value fun text c =>
     (word32? text).map fun rate => { c with rate := some rate }⟩,
   ⟨"count", none, false, .value fun text c =>
     (word64? text).map fun count => { c with count := some count }⟩]

def replaying : List (Switch Choices) :=
  [⟨"speed", none, false, .value fun text c =>
     (speed? text).map fun speed => { c with speed := some speed }⟩,
   ⟨"fast", none, false, .flag fun c => .ok { c with fast := true }⟩]

def capturing : List (Switch Choices) :=
  [bindSwitch,
   ⟨"output", some 'o', false, .value fun text c =>
     (path? text).map fun path => { c with output := some path }⟩,
   ⟨"duration", some 'd', false, .value fun text c =>
     (word64? text).map fun seconds => { c with duration := some seconds }⟩]

def encoding : List (Switch Choices) :=
  [⟨"send", none, false, .value fun text c =>
     (Address.ofText? text).map fun target => { c with target := some target }⟩]

/-- The pace of a replay: a speed or none at all, but not both. -/
def pace? (c : Choices) : Option Pace :=
  match c.speed, c.fast with
  | some _, true => none
  | some speed, false => some (.times speed)
  | none, true => some .unpaced
  | none, false => some (.times (.ofNat 1))

/-- Seconds of a capture, if none are chosen. -/
def defaultDuration : UInt64 := 60

end Choices

end Downlink.CommandLine
