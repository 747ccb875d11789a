import Downlink.Config
import Downlink.Text.Yaml.Writer

/-!
# Writing configurations

Settings are written under the names that they are read by, all of them but the layout, which is
left out when there is none. In YAML a choice with a value is a tag in front of it.
-/

namespace Downlink

def Field.toJson (f : Field) : Json :=
  .object
    [("name", .string f.name), ("bit_width", .int f.width), ("signed", .bool f.signed),
     ("scale", .int f.scale.toNat), ("reserved", .bool f.reserved)]

def Layout.Draft.toJson (d : Layout.Draft) : Json :=
  let frameBits := d.frameBits.toList.map fun n => ("frame_bits", Json.ofNat n)
  .object (("fields", .array (d.fields.map Field.toJson)) :: frameBits)

def Marker.toJson (m : Marker) : Json :=
  .array (m.toBytes.map fun b => .int b.toNat)

def Markers.toJson (m : Markers) : Json :=
  .object [("sync", m.sync.toJson), ("terminator", m.terminator.toJson)]

def UpdateRate.toJson : UpdateRate → Json
  | .native => .string "native"
  | .max perSecond => .object [("max", .int perSecond.toNat)]

def UpdateRate.toYaml : UpdateRate → String
  | .native => "native"
  | .max perSecond => "!max " ++ toString perSecond.toNat

namespace Config

def members (c : Config) : List (String × Json) :=
  [("bind", .string c.bind.text),
   ("recv_buffer", .int c.receiveBuffer.toNat),
   ("markers", c.markers.toJson)]
  ++ (c.layout.toList.map fun draft => ("schema", draft.toJson))
  ++ [("require_exact_consumption", .bool c.exact),
   ("update_rate", c.updateRate.toJson),
   ("max_transport_errors", .int c.maxTransportErrors.toNat)]

def toJson (c : Config) : Json :=
  .object c.members

def toYaml (c : Config) : String :=
  let line (name : String) (value : Json) : String :=
    let written := if name = "update_rate" then c.updateRate.toYaml else Yaml.flowText value
    name ++ ": " ++ written ++ "\n"
  String.join (c.members.map fun (name, value) => line name value)

end Config

end Downlink
