import Downlink.Config
import Downlink.Network
import Downlink.Source

/-!
# Listeners

A listener receives datagrams at an address. What is longer than its buffer is cut off.

* `length_received_le`: nothing that is handed over is longer than the buffer.
* `countsFrom_source`: it is numbered.
-/

namespace Downlink

structure Listener where
  address : Address
  /-- Bytes kept of each datagram. -/
  buffer : Nat
  /-- Datagrams handed over so far. -/
  sequence : Nat
deriving DecidableEq, Repr

namespace Listener

/-- A listener at an address, if the network has it. -/
def bind (network : Network) (address : Address) (buffer : Nat) : Except LinkError Listener :=
  match network.bind address with
  | .error e =>
    .error (.transport ("failed to bind UDP socket at " ++ address.text) (some e.message))
  | .ok () =>
    if buffer = 0 then .error (.config "recv_buffer" "must be greater than zero")
    else .ok ⟨address, buffer, 0⟩

/-- A listener for an acceptable configuration, with the layout to decode by. -/
def ofConfig (network : Network) (c : Config) : Except LinkError (Listener × Layout) := do
  let layout ← c.check
  let listener ← bind network c.bind c.receiveBuffer.toNat
  return (listener, layout)

/-- What is received, as a location. -/
def location (l : Listener) : String :=
  "udp://" ++ l.address.text

def keep (l : Listener) (datagram : Bytes) : Bytes :=
  datagram.take l.buffer

theorem length_keep (l : Listener) (datagram : Bytes) : (l.keep datagram).length ≤ l.buffer := by
  exact List.length_take_le _ _

/-- What is answered when a datagram has arrived, or when none can be received. -/
def receive (l : Listener) : Except SystemError Bytes → Answer × Listener
  | .ok datagram =>
    (.datagram ⟨l.keep datagram, l.sequence⟩, { l with sequence := l.sequence + 1 })
  | .error e => (.failure (.ofSystem e.message), l)

/-- The calls of a listener to which something happens at some moments and then nothing more. -/
def source (l : Listener) : List (Nat × Except SystemError Bytes) → Source
  | [] => [⟨.forever, .exhausted⟩]
  | (moment, arrival) :: rest =>
    let (answer, l) := l.receive arrival
    ⟨.due moment, answer⟩ :: l.source rest

theorem length_received_le (l : Listener) (arrivals : List (Nat × Except SystemError Bytes)) :
    ∀ d ∈ (l.source arrivals).received, d.bytes.length ≤ l.buffer := by
  induction arrivals generalizing l with
  | nil => exact fun d hd => by cases hd
  | cons first rest ih =>
    obtain ⟨moment, e | datagram⟩ := first
    · exact ih l
    · exact List.forall_mem_cons.2 ⟨l.length_keep datagram, ih _⟩

theorem countsFrom_source (l : Listener) (arrivals : List (Nat × Except SystemError Bytes)) :
    (l.source arrivals).CountsFrom l.sequence := by
  induction arrivals generalizing l with
  | nil => rfl
  | cons first rest ih =>
    obtain ⟨moment, e | datagram⟩ := first
    · exact Source.countsFrom_cons_of_not_datagram nofun (ih l)
    · exact Source.countsFrom_cons_of_datagram rfl rfl (ih _)

end Listener

end Downlink
