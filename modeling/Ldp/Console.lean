import Ldp.Framework.SharedLog
import Ldp.NoisyChat
import Ldp.Session

/-!
# What two programs write to their consoles

Two chatters over a network that may alter datagrams, with every write to standard output.
The consumer's `printMessage` writes a message and then `std::endl`, the receiver writes that a
packet is corrupted, and neither takes a lock, so that the receiver may write in between.
-/

namespace Ldp

open Framework

/-- One write to standard output: a message, `std::endl`, or `"corruption\n"`. -/
abbrev Write := SharedLog.Write (List UInt8) Unit

def Write.text : Write → List UInt8
  | .first message => message
  | .second => [newline]
  | .whole _ => [99, 111, 114, 114, 117, 112, 116, 105, 111, 110, newline]

/-- The two endpoints and the network, what is left of each standard input, and the writes to
each standard output. -/
structure Console where
  chat : Chat
  stdin : Side → List UInt8
  writes : Side → List Write
  /-- The consumer is between the two writes of `printMessage`. -/
  printing : Side → Bool
  /-- The receiver has a corrupted packet that it has not reported yet. -/
  reporting : Side → Bool

namespace Console

/-- The two programs before their loops, each with its standard input. -/
def start (party : Side → Party) (content : Side → List UInt8) : Console where
  chat := .start fun side => { party side with callers := 1 }
  stdin := content
  writes _ := []
  printing _ := false
  reporting _ := false

/-- What has been written to standard output. -/
def stdout (s : Console) (side : Side) : List UInt8 := (s.writes side).flatMap Write.text

/-- What can happen next: the loop on a side begins another pass, the consumer on a side ends
`printMessage`, the receiver on a side reports a corrupted packet, or something else happens to
the endpoints or the network. -/
inductive Event
  | pass (side : Side) (message : Vector UInt8 MAXBUFLEN)
  | endl (side : Side)
  | report (side : Side)
  | chat (e : NoisyChat.Event)

/-- The packets that a step from `c` to `c'` has received on a side. -/
def received (c c' : Chat) (side : Side) : List (Sockaddr × LDPPacket) :=
  (c'.endpoint side).received.drop (c.endpoint side).received.length

/-- The event is a step of a thread that has something to write first. -/
def busy (s : Console) : NoisyChat.Event → Bool
  | .chat (.act side .consumer) => s.printing side
  | .chat (.deliver side ..) => s.reporting side
  | _ => false

/-- Something happens to the endpoints or the network, and what is delivered is written. -/
def chatStep (net : Network) (s : Console) (e : NoisyChat.Event) : Option Console :=
  if s.busy e then none
  else do
    let chat ← NoisyChat.step net s.chat e
    some { s with
      chat
      writes := fun side => s.writes side ++ (Session.passed s.chat chat side).map .first
      printing := fun side => s.printing side || !(Session.passed s.chat chat side).isEmpty
      reporting := fun side => s.reporting side || (received s.chat chat side).any (·.2.isCorrupted) }

/-- One step. -/
def step (net : Network) (s : Console) : Event → Option Console
  | .pass side message => do
    let read := fgets message (s.stdin side)
    let string ← stringOf read.1
    let chat ← s.chat.step net (.act side (.call 0 string))
    some { s with chat, stdin := Function.update s.stdin side read.2 }
  | .endl side =>
    if s.printing side then
      some { s with
        writes := Function.update s.writes side (s.writes side ++ [.second])
        printing := Function.update s.printing side false }
    else none
  | .report side =>
    if s.reporting side then
      some { s with
        writes := Function.update s.writes side (s.writes side ++ [.whole ()])
        reporting := Function.update s.reporting side false }
    else none
  | .chat (.chat (.act _ (.call ..))) => none
  | .chat e => s.chatStep net e

/-- The receiver on `side` does not report anything in the middle of `printMessage`. -/
def Undisturbed (side : Side) (s : Console) : Event → Prop
  | .report x => x = side → s.printing side = false
  | _ => True

end Console
end Ldp
