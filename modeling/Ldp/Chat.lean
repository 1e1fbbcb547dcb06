import Ldp.Endpoint
import Ldp.Framework.Channel
import Mathlib.Logic.Function.Basic

/-!
# A chat over a network

Two endpoints, each at an address, and the datagrams on their way to each. What an
endpoint sends to the address of the other goes on its way there, and anything else
it sends is lost; a datagram that the network delivers arrives from the address of
the other side. The faults of the network are those of a channel.
-/

namespace Ldp

open Framework

/-- A side of a chat. -/
inductive Side
  | left
  | right
  deriving DecidableEq, Repr

def Side.other : Side → Side
  | .left => .right
  | .right => .left

/-- The network, and the hosts on it. -/
structure Network where
  host : ByteOrder
  faults : Faults
  address : Side → Sockaddr

/-- What `Chatter` sets up on a side: see `Endpoint.chatter`. -/
structure Party where
  isClient : Bool
  memory : Sockaddr
  resolved : Sockaddr
  callers : Nat

structure Chat where
  endpoint : Side → Endpoint
  /-- The datagrams on their way to each side. -/
  inFlight : Side → List (Vector UInt8 LDP_PACKET_SIZE)

namespace Chat

/-- The chat before anything has happened. -/
def start (party : Side → Party) : Chat where
  endpoint side :=
    .chatter (party side).isClient (party side).memory (party side).resolved (party side).callers
  inFlight _ := []

/-- An endpoint takes a step of its own, or something happens to a datagram on its
way to `side`. -/
inductive Event
  | act (side : Side) (e : Endpoint.Event)
  | deliver (side : Side) (i : Nat) (buf : Vector UInt8 LDP_PACKET_SIZE)
  | drop (side : Side) (i : Nat)
  | duplicate (side : Side) (i : Nat)

/-- The datagrams that a step from `s` to `s'` has sent to `address`. -/
def outgoing (address : Sockaddr) (s s' : Endpoint) : List (Vector UInt8 LDP_PACKET_SIZE) :=
  ((s'.sent.drop s.sent.length).filter (·.dest = address)).map (·.datagram)

/-- One step. Datagrams arrive through the network only. -/
def step (net : Network) (c : Chat) : Event → Option Chat
  | .act _ (.arrive ..) => none
  | .act side e => do
    let s ← (c.endpoint side).step net.host e
    let out := outgoing (net.address side.other) (c.endpoint side) s
    some {
      endpoint := Function.update c.endpoint side s
      inFlight := Function.update c.inFlight side.other (c.inFlight side.other ++ out) }
  | .deliver side i buf =>
    if i = 0 ∨ net.faults.reorders then do
      let datagram ← (c.inFlight side)[i]?
      let s ← (c.endpoint side).step net.host (.arrive (net.address side.other) datagram.toList buf)
      some {
        endpoint := Function.update c.endpoint side s
        inFlight := Function.update c.inFlight side ((c.inFlight side).eraseIdx i) }
    else none
  | .drop side i =>
    if net.faults.drops then
      some { c with inFlight := Function.update c.inFlight side ((c.inFlight side).eraseIdx i) }
    else none
  | .duplicate side i =>
    if net.faults.duplicates then do
      let datagram ← (c.inFlight side)[i]?
      some { c with
        inFlight := Function.update c.inFlight side ((c.inFlight side).insertIdx (i + 1) datagram) }
    else none

end Chat
end Ldp
