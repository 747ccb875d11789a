/-!
# Settings

Settings are read from JSON and from YAML. The two differ in what they take for a number, a list or
a choice, so each is described by a view of its nodes, and what is read is said once, in terms of
the view.
-/

namespace Downlink.Settings

structure NodeView (ν : Type) where
  natural? : ν → Option Nat
  boolean? : ν → Option Bool
  text? : ν → Option String
  items? : ν → Option (List ν)
  /-- The names and values of a node that holds values of declared names. -/
  entries? : List String → ν → Option (List (String × ν))
  /-- Nothing, or a value that may stand where nothing may stand. -/
  present? : ν → Option (Option ν)
  /-- The name of a choice, and the value that goes with it. -/
  choice? : ν → Option (String × Option ν)
  /-- Whether the value that goes with a choice says nothing. -/
  isBlank : ν → Bool

abbrev Members (ν : Type) := List (String × ν)

namespace Members

variable {ν α : Type}

def required (m : Members ν) (name : String) (read : ν → Option α) : Option α :=
  (m.lookup name).bind read

def optional (m : Members ν) (name : String) (default : α) (read : ν → Option α) : Option α :=
  match m.lookup name with
  | none => some default
  | some node => read node

end Members

inductive Extras
  | ignored
  | refused
deriving DecidableEq, Repr

namespace NodeView

variable {ν α : Type}

/-- The values of a node under declared names, none of them twice. -/
def members? (view : NodeView ν) (extras : Extras) (declared : List String) (node : ν) :
    Option (Members ν) := do
  let entries ← view.entries? declared node
  let names := entries.map Prod.fst
  let known := names.filter (· ∈ declared)
  if known.Nodup ∧ (extras = .refused → known = names) then return entries else none

def below? (view : NodeView ν) (bound : Nat) (node : ν) : Option Nat :=
  (view.natural? node).bind fun n => if n < bound then some n else none

/-- A byte. -/
def byte? (view : NodeView ν) (node : ν) : Option UInt8 :=
  (view.below? UInt8.size node).map UInt8.ofNat

/-- A 32-bit word. -/
def word32? (view : NodeView ν) (node : ν) : Option UInt32 :=
  (view.below? UInt32.size node).map UInt32.ofNat

/-- A 64-bit word. -/
def word64? (view : NodeView ν) (node : ν) : Option UInt64 :=
  (view.below? UInt64.size node).map UInt64.ofNat

def listOf? (view : NodeView ν) (read : ν → Option α) (node : ν) : Option (List α) :=
  (view.items? node).bind fun items => items.mapM read

/-- Nothing, or a value that can be read. -/
def orNothing? (view : NodeView ν) (read : ν → Option α) (node : ν) : Option (Option α) :=
  (view.present? node).bind fun
    | none => some none
    | some node => (read node).map some

end NodeView

end Downlink.Settings
