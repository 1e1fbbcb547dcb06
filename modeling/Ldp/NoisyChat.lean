import Ldp.Chat

/-!
# A chat over a network that alters datagrams

Beside what the network of a chat may do, it may put any 15 bytes in the place of a datagram
in flight.
-/

namespace Ldp.NoisyChat

open Framework

/-- Something happens in the chat, or to the bytes of a datagram on its way to `side`. -/
inductive Event
  | chat (e : Chat.Event)
  | alter (side : Side) (i : Nat) (datagram : Vector UInt8 LDP_PACKET_SIZE)

/-- One step. -/
def step (net : Network) (c : Chat) : Event → Option Chat
  | .chat e => c.step net e
  | .alter side i datagram =>
    some { c with inFlight := Function.update c.inFlight side ((c.inFlight side).set i datagram) }

end Ldp.NoisyChat
