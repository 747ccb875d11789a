import Downlink.Config
import Downlink.Settings.JsonView
import Downlink.Settings.YamlView
import Downlink.Text.Blank

/-!
# Reading configurations

What the members of a configuration are called, which of them may be left out, and what stands for
them then. Names that are not known are refused at the outermost level and ignored further in.
-/

namespace Downlink

open Settings

variable {ν : Type}

/-- Reads a field: its name and width have to be given. -/
def Field.read? (view : NodeView ν) (node : ν) : Option Field := do
  let m ← view.members? .ignored ["name", "bit_width", "signed", "scale", "reserved"] node
  let name ← m.required "name" view.text?
  let width ← m.required "bit_width" view.word32?
  let signed ← m.optional "signed" false view.boolean?
  let scale ← m.optional "scale" 1 view.word32?
  let reserved ← m.optional "reserved" false view.boolean?
  return { name, width := width.toNat, signed, scale, reserved }

/-- Reads a layout: its fields have to be given. -/
def Layout.Draft.read? (view : NodeView ν) (node : ν) : Option Layout.Draft := do
  let m ← view.members? .ignored ["fields", "frame_bits"] node
  let fields ← m.required "fields" (view.listOf? (Field.read? view))
  let frameBits ← m.optional "frame_bits" none (view.orNothing? view.word64?)
  return { fields, frameBits := frameBits.map UInt64.toNat }

/-- Reads a marker: a list of two bytes. -/
def Marker.read? (view : NodeView ν) (node : ν) : Option Marker := do
  match ← view.listOf? view.byte? node with
  | [first, second] => return ⟨first, second⟩
  | _ => none

/-- Reads the two markers, which have to be given together. -/
def Markers.read? (view : NodeView ν) (node : ν) : Option Markers := do
  let m ← view.members? .ignored ["sync", "terminator"] node
  let sync ← m.required "sync" (Marker.read? view)
  let terminator ← m.required "terminator" (Marker.read? view)
  return { sync, terminator }

/-- Reads an update rate: `native` alone, or `max` with a number. -/
def UpdateRate.read? (view : NodeView ν) (node : ν) : Option UpdateRate := do
  match ← view.choice? node with
  | ("native", none) => return .native
  | ("native", some value) => if view.isBlank value then return .native else none
  | ("max", some value) => return .max (← view.word32? value)
  | _ => none

namespace Config

def names : List String :=
  ["bind", "recv_buffer", "markers", "schema", "require_exact_consumption", "update_rate",
   "max_transport_errors"]

/-- Reads a configuration: what is left out has the default, and other names are refused. -/
def read? (view : NodeView ν) (node : ν) : Option Config := do
  let m ← view.members? .refused names node
  let bind ← m.optional "bind" flight.bind fun n => (view.text? n).bind Address.ofText?
  let receiveBuffer ← m.optional "recv_buffer" flight.receiveBuffer view.word64?
  let markers ← m.optional "markers" flight.markers (Markers.read? view)
  let layout ← m.optional "schema" flight.layout (view.orNothing? (Layout.Draft.read? view))
  let exact ← m.optional "require_exact_consumption" flight.exact view.boolean?
  let updateRate ← m.optional "update_rate" flight.updateRate (UpdateRate.read? view)
  let maxTransportErrors ←
    m.optional "max_transport_errors" flight.maxTransportErrors view.word32?
  return { bind, receiveBuffer, markers, layout, exact, updateRate, maxTransportErrors }

def ofYaml? (text : String) : Option Config :=
  if (Text.trim text).isEmpty then some flight
  else (Yaml.Document.parse? text).bind fun d => read? (.yaml d) d.root

def load (text : String) : Except LinkError (Config × Layout) :=
  match ofYaml? text with
  | none => .error (.config "YAML" "not a configuration")
  | some c => c.check.map (c, ·)

end Config

end Downlink
