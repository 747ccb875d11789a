/-!
# Watched values

A channel that holds the value sent last and counts what was sent. A receiver remembers the count
that it has seen; values sent in between are lost to it.
-/

namespace Downlink

/-- A value that is replaced by sending, until the channel is closed. -/
structure Watch (α : Type) where
  value : α
  version : Nat
  closed : Bool
deriving DecidableEq, Repr

namespace Watch

variable {α : Type}

/-- A channel with its first value. -/
def new (value : α) : Watch α := ⟨value, 0, false⟩

def send (w : Watch α) (value : α) : Watch α :=
  { w with value, version := w.version + 1 }

def close (w : Watch α) : Watch α :=
  { w with closed := true }

structure Receiver where
  /-- The version seen last; none if the present one is to count as new. -/
  seen : Option Nat
deriving DecidableEq, Repr

inductive Change
  | changed
  | closed
  | waiting
deriving DecidableEq, Repr

namespace Receiver

/-- The receiver that a channel comes with has seen the first value. -/
def new : Receiver := ⟨some 0⟩

def markChanged (_ : Receiver) : Receiver := ⟨none⟩

def markSeen (w : Watch α) : Receiver := ⟨some w.version⟩

/-- Whether there is a value that was not seen, and if not, whether there may yet be one. -/
def changed (r : Receiver) (w : Watch α) : Change :=
  if r.seen ≠ some w.version then .changed
  else if w.closed then .closed
  else .waiting

end Receiver

end Watch

end Downlink
