/-!
# Streams

A stream is polled: it gives an item, waits for something to happen, or has ended. What it looks at
changes at certain moments. A consumer polls at each of them until the stream waits, and also when
the stream itself asks to be woken.
-/

namespace Downlink

inductive Poll (α : Type)
  | item (a : α)
  | waiting
  | ended
deriving DecidableEq, Repr

/-- What a stream gives when it is polled until it waits or ends. -/
structure Burst (α : Type) where
  items : List α
  ended : Bool
deriving DecidableEq, Repr

namespace Burst

variable {α : Type}

def none : Burst α := ⟨[], false⟩

def cons (a : α) (b : Burst α) : Burst α := { b with items := a :: b.items }

end Burst

/-- A way to poll streams with state `σ` that look at values of `ω`. -/
structure Polling (σ ω α : Type) where
  poll : σ → ω → Nat → Poll α × σ
  /-- The moment at which the stream wants to be polled though nothing changed. -/
  wake? : σ → Option Nat

namespace Polling

variable {σ ω α : Type}

/-- Polls until the stream waits or ends, but no more than `limit` times. -/
def settle (p : Polling σ ω α) (view : ω) (now : Nat) : Nat → σ → Burst α × σ
  | 0, s => (.none, s)
  | limit + 1, s =>
    match p.poll s view now with
    | (.item a, s) =>
      let (b, s) := settle p view now limit s
      (b.cons a, s)
    | (.waiting, s) => (.none, s)
    | (.ended, s) => (⟨[], true⟩, s)

/-- The items of a burst at their time, and the end if it is one. -/
def timed (now : Nat) (b : Burst α) : List (Nat × Option α) :=
  b.items.map (fun a => (now, some a)) ++ if b.ended then [(now, none)] else []

/-- What a consumer gets who polls at the given moments, each with what the stream then looks at,
and when the stream asks for it. An end has no item. -/
def follow (p : Polling σ ω α) (limit : Nat) (s : σ) : List (Nat × ω) → List (Nat × Option α)
  | [] => []
  | (now, view) :: rest =>
    let (b, s) := p.settle view now limit s
    let got := timed now b
    if b.ended then got
    else
      let next := rest.head?.map Prod.fst
      match p.wake? s with
      | some wake =>
        if next.all (wake < ·) then
          let (b, s) := p.settle view wake limit s
          got ++ timed wake b ++ if b.ended then [] else follow p limit s rest
        else got ++ follow p limit s rest
      | none => got ++ follow p limit s rest

end Polling

end Downlink
