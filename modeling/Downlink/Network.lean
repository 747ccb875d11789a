import Downlink.Address
import Downlink.SystemError

/-!
# Networks

A network is given by its answers: where datagrams can be received, and which can be sent.
-/

namespace Downlink

structure Network where
  /-- Whether a socket can be had at an address, to receive at or to send from. -/
  bind : Address → Except SystemError Unit
  /-- Whether a datagram can be sent to an address. -/
  send : Address → Bytes → Except SystemError Unit

end Downlink
