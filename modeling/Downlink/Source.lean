import Downlink.Error

/-!
# Datagram sources

Time is counted in whole milliseconds from the start. A source is asked again and again; each call
waits for some time and then gives a datagram, fails, or tells that there is nothing more. So a
source is the list of its calls, and behind the last of them it has nothing more.

Whoever hands over datagrams numbers them from zero on; nothing else has a number.

* `Source.countsFrom_ofSteps`: so it is with the calls that steps make.
-/

namespace Downlink

inductive Wait
  /-- So many milliseconds from the call. -/
  | pause (milliseconds : Nat)
  /-- Until a moment, not at all if it has passed. -/
  | due (moment : Nat)
  | forever
deriving DecidableEq, Repr

/-- When a wait that begins now is over, if it ever is. -/
def Wait.end? (now : Nat) : Wait → Option Nat
  | .pause milliseconds => some (now + milliseconds)
  | .due moment => some (max now moment)
  | .forever => none

/-- A datagram as it is handed over. -/
structure RawDatagram where
  bytes : Bytes
  /-- How many have been handed over before it. -/
  sequence : Nat
deriving DecidableEq, Repr

/-- Datagrams that are handed over one after another, the first of them under a number. -/
def RawDatagram.numbered (first : Nat) (given : List Bytes) : List RawDatagram :=
  (given.zipIdx first).map fun (bytes, sequence) => ⟨bytes, sequence⟩

theorem RawDatagram.numbered_append (first : Nat) (given more : List Bytes) :
    numbered first (given ++ more) =
      numbered first given ++ numbered (first + given.length) more := by
  rw [numbered, List.zipIdx_append, List.map_append]
  rfl

@[simp] theorem RawDatagram.length_numbered (first : Nat) (given : List Bytes) :
    (numbered first given).length = given.length := by
  rw [numbered, List.length_map, List.length_zipIdx]

@[simp] theorem RawDatagram.map_bytes_numbered (first : Nat) (given : List Bytes) :
    (numbered first given).map RawDatagram.bytes = given := by
  rw [numbered, List.map_map]
  exact List.zipIdx_map_fst first given

inductive Answer
  | datagram (datagram : RawDatagram)
  | failure (error : LinkError)
  | exhausted
deriving DecidableEq, Repr

structure Call where
  wait : Wait
  answer : Answer
deriving DecidableEq, Repr

/-- The calls of a source, one after another. -/
abbrev Source := List Call

namespace Source

/-- The datagrams that a source hands over if it is asked to its end. -/
def received (source : Source) : List RawDatagram :=
  source.filterMap fun call =>
    match call.answer with
    | .datagram d => some d
    | _ => none

/-- What they hold. -/
def datagrams (source : Source) : List Bytes :=
  source.received.map RawDatagram.bytes

/-- The datagrams are numbered from `first` on. -/
def CountsFrom (first : Nat) (source : Source) : Prop :=
  source.received = RawDatagram.numbered first source.datagrams

variable {call : Call} {d : RawDatagram} {first : Nat} {source : Source}

@[simp] theorem datagrams_nil : datagrams [] = [] := rfl

@[simp] theorem received_append (calls more : Source) :
    received (calls ++ more) = received calls ++ received more :=
  List.filterMap_append

@[simp] theorem datagrams_append (calls more : Source) :
    datagrams (calls ++ more) = datagrams calls ++ datagrams more := by
  rw [datagrams, received_append, List.map_append]
  rfl

@[simp] theorem length_datagrams (source : Source) :
    source.datagrams.length = source.received.length :=
  List.length_map _

theorem datagrams_isPrefix {calls more : Source} (h : calls <+: more) :
    calls.datagrams <+: more.datagrams :=
  (h.filterMap _).map _

theorem received_cons_of_datagram (h : call.answer = .datagram d) (calls : Source) :
    received (call :: calls) = d :: received calls := by
  simp [received, h]

theorem received_cons_of_not_datagram (h : ∀ d, call.answer ≠ .datagram d) (calls : Source) :
    received (call :: calls) = received calls := by
  rw [received, List.filterMap_cons_none]
  · rfl
  · cases hanswer : call.answer with
    | datagram d => exact absurd hanswer (h d)
    | failure error => rfl
    | exhausted => rfl

theorem datagrams_cons_of_datagram (h : call.answer = .datagram d) (calls : Source) :
    datagrams (call :: calls) = d.bytes :: datagrams calls := by
  rw [datagrams, received_cons_of_datagram h]
  rfl

theorem datagrams_cons_of_not_datagram (h : ∀ d, call.answer ≠ .datagram d) (calls : Source) :
    datagrams (call :: calls) = datagrams calls := by
  rw [datagrams, received_cons_of_not_datagram h]
  rfl

theorem countsFrom_cons_of_datagram (h : call.answer = .datagram d) (hnumber : d.sequence = first)
    (hrest : source.CountsFrom (first + 1)) : CountsFrom first (call :: source) := by
  obtain ⟨bytes, sequence⟩ := d
  obtain rfl : sequence = first := hnumber
  rw [CountsFrom, received_cons_of_datagram h, datagrams_cons_of_datagram h, hrest]
  rfl

theorem countsFrom_cons_of_not_datagram (h : ∀ d, call.answer ≠ .datagram d)
    (hrest : source.CountsFrom first) : CountsFrom first (call :: source) := by
  rw [CountsFrom, received_cons_of_not_datagram h, datagrams_cons_of_not_datagram h]
  exact hrest

theorem CountsFrom.of_isPrefix {calls : Source} (h : source.CountsFrom first)
    (hle : calls <+: source) : calls.CountsFrom first := by
  obtain ⟨more, rfl⟩ := hle
  rw [CountsFrom, received_append, datagrams_append, RawDatagram.numbered_append] at h
  refine (List.append_inj h ?_).1
  rw [RawDatagram.length_numbered, length_datagrams]

end Source

/-! ## Scripts -/

inductive Step
  | datagram (bytes : Bytes)
  | failure (error : LinkError)
  /-- Waits inside the call and goes on. -/
  | sleep (milliseconds : Nat)
  | hang
deriving DecidableEq, Repr

namespace Source

/-- The calls that steps make, the first of which has slept for some time, behind so many datagrams
that have been handed over. -/
def ofStepsAfter (slept sequence : Nat) : List Step → Source
  | [] => [⟨.pause slept, .exhausted⟩]
  | .datagram bytes :: rest =>
    ⟨.pause slept, .datagram ⟨bytes, sequence⟩⟩ :: ofStepsAfter 0 (sequence + 1) rest
  | .failure error :: rest => ⟨.pause slept, .failure error⟩ :: ofStepsAfter 0 sequence rest
  | .sleep milliseconds :: rest => ofStepsAfter (slept + milliseconds) sequence rest
  | .hang :: _ => [⟨.forever, .exhausted⟩]

def ofSteps (steps : List Step) : Source :=
  ofStepsAfter 0 0 steps

theorem countsFrom_ofStepsAfter (slept sequence : Nat) (steps : List Step) :
    (ofStepsAfter slept sequence steps).CountsFrom sequence := by
  induction steps generalizing slept sequence with
  | nil => rfl
  | cons step rest ih =>
    cases step with
    | datagram bytes => exact countsFrom_cons_of_datagram rfl rfl (ih 0 (sequence + 1))
    | failure error => exact countsFrom_cons_of_not_datagram nofun (ih 0 sequence)
    | sleep milliseconds => exact ih (slept + milliseconds) sequence
    | hang => rfl

theorem countsFrom_ofSteps (steps : List Step) : (ofSteps steps).CountsFrom 0 :=
  countsFrom_ofStepsAfter 0 0 steps

end Source

end Downlink
