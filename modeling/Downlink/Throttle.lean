import Downlink.Stream

/-!
# Throttling

A throttled stream gives at most one item a period. Items that come while its gate is closed replace
one another, so the one given when the gate opens is the newest. The first item passes at once, and
an item that is held when the source ends is still given when the gate opens.
-/

namespace Downlink

/-- A throttled stream: what it holds and when its gate opens. Times are in nanoseconds. -/
structure Throttle (α : Type) where
  period : Nat
  held : Option α
  /-- When the gate opens; none if it is open. -/
  opensAt : Option Nat
  sourceEnded : Bool
deriving DecidableEq, Repr

namespace Throttle

variable {α : Type}

def new (period : Nat) : Throttle α := ⟨period, none, none, false⟩

/-- Takes what the source has, of which only the newest is kept. -/
def take (t : Throttle α) (b : Burst α) : Throttle α :=
  { t with held := b.items.getLast?.or t.held, sourceEnded := b.ended }

def isOpen (t : Throttle α) (now : Nat) : Bool :=
  t.opensAt.all (· ≤ now)

def give (t : Throttle α) (now : Nat) : Poll α × Throttle α :=
  let t := if t.isOpen now then { t with opensAt := none } else t
  match t.opensAt, t.held with
  | none, some a => (.item a, { t with held := none, opensAt := some (now + t.period) })
  | _, some _ => (.waiting, t)
  | _, none => (if t.sourceEnded then .ended else .waiting, t)

/-- Asks the source until it waits, and gives what may be given. A source that has ended is not
asked. -/
def poll {σ : Type} (ask : σ → Burst α × σ) (t : Throttle α) (s : σ) (now : Nat) :
    Poll α × Throttle α × σ :=
  if t.sourceEnded then
    let (given, t) := t.give now
    (given, t, s)
  else
    let (b, s) := ask s
    let (given, t) := (t.take b).give now
    (given, t, s)

/-- The millisecond at which a held item can be given. -/
def wake? (t : Throttle α) : Option Nat :=
  if t.held.isSome then t.opensAt.map fun opensAt => (opensAt + 999999) / 1000000 else none

/-! ## Queues -/

/-- The items that came into a queue so far, and whether it was closed. -/
abbrev Queue (α : Type) := Burst α

/-- Takes everything from a queue of which some items were taken before. -/
def takeQueued (queue : Queue α) (taken : Nat) : Burst α × Nat :=
  (⟨queue.items.drop taken, queue.ended⟩, queue.items.length)

def queued : Polling (Throttle α × Nat) (Queue α) α where
  poll s queue now :=
    let (given, t, taken) := poll (takeQueued queue) s.1 s.2 (now * 1000000)
    (given, t, taken)
  wake? s := s.1.wake?

/-- The queue as it is at each moment at which something happens, from a start on. -/
def queueMoments (arrivals : List (Nat × α)) (closesAt : Nat) : List (Nat × Queue α) :=
  let moments := (0 :: arrivals.map Prod.fst ++ [closesAt]).eraseReps
  moments.map fun now =>
    (now, ⟨(arrivals.filter (·.1 ≤ now)).map Prod.snd, decide (closesAt ≤ now)⟩)

/-- What comes out of a throttled queue, and when. -/
def pass (period : Nat) (arrivals : List (Nat × α)) (closesAt : Nat) : List (Nat × Option α) :=
  queued.follow 3 (new period, 0) (queueMoments arrivals closesAt)

end Throttle

end Downlink
