import Downlink.Frame
import Downlink.Layout.Unpack

/-!
# Decoding datagrams

A decoder isolates the payload of a datagram and unpacks it. It keeps nothing between datagrams.
-/

namespace Downlink

structure Decoder where
  layout : Layout
  markers : Markers
  /-- Whether payload bits behind the last field are refused. -/
  exact : Bool

namespace Decoder

def decode (d : Decoder) (datagram : Bytes) : Except DecodeError Record :=
  match d.markers.extract datagram with
  | .error cause => .error (.framing cause)
  | .ok payload =>
    match if d.exact then d.layout.unpackExact payload else d.layout.unpack payload with
    | .error cause => .error (.unpacking cause)
    | .ok record => .ok record

end Decoder

end Downlink
