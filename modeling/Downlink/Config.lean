import Downlink.Address
import Downlink.ReceiveLoop
import Downlink.UpdateRate

/-!
# Configuration

Everything that a ground station can be told. Each setting has a default, so that an empty
document stands for the flight link. The settings are checked before anything is received, and
the layout is built then, so that a broken one is found at once.

* `Config.checked`: what an accepted configuration guarantees.
-/

namespace Downlink

structure Config where
  bind : Address
  /-- Bytes kept of each datagram. -/
  receiveBuffer : UInt64
  markers : Markers
  /-- The field layout; the flight layout if none is given. -/
  layout : Option Layout.Draft
  /-- Whether payload bits behind the last field are refused. -/
  exact : Bool
  /-- The rate of subscribers that do not choose one. -/
  updateRate : UpdateRate
  /-- Failures of the source in a row that end the receive loop. -/
  maxTransportErrors : UInt32
deriving DecidableEq, Repr

namespace Config

def flight : Config where
  bind := .loopback 40868
  receiveBuffer := 1024
  markers := .flight
  layout := none
  exact := false
  updateRate := .native
  maxTransportErrors := 10

instance : Inhabited Config := ⟨flight⟩

def buildLayout (c : Config) : Except LinkError Layout :=
  match c.layout with
  | none => .ok .flight
  | some draft =>
    match draft.build with
    | .ok layout => .ok layout
    | .error cause => .error (.layout cause)

/-- Refuses the first setting that is not acceptable, and gives the layout otherwise. -/
def check (c : Config) : Except LinkError Layout :=
  if c.receiveBuffer = 0 then .error (.config "recv_buffer" "must be greater than zero")
  else if c.maxTransportErrors = 0 then
    .error (.config "max_transport_errors" "must be greater than zero")
  else if c.markers.sync = c.markers.terminator then
    .error (.config "markers" "sync marker and terminator must differ")
  else c.buildLayout

def decoder (c : Config) (layout : Layout) : Decoder :=
  ⟨layout, c.markers, c.exact⟩

/-- When the receive loop gives up, and how long it waits. -/
def loopOptions (c : Config) : LoopOptions :=
  { LoopOptions.default with maxTransportErrors := c.maxTransportErrors.toNat }

/-- An accepted configuration keeps bytes, gives up some time, has two markers and a layout. -/
theorem checked {c : Config} {layout : Layout} (h : c.check = .ok layout) :
    c.receiveBuffer ≠ 0 ∧ c.maxTransportErrors ≠ 0 ∧ c.markers.sync ≠ c.markers.terminator ∧
      c.buildLayout = .ok layout := by
  unfold check at h
  split at h
  · simp at h
  · split at h
    · simp at h
    · split at h
      · simp at h
      · exact ⟨by assumption, by assumption, by assumption, h⟩

end Config

end Downlink
