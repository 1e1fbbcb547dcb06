import Ldp.Chat
import Ldp.Chatter

/-!
# Two chatters

A program on each side of a chat, client or server: the loop of its `Chatter` reads standard
input and is the only caller of `send`, and its `onMessage` is `printMessage`, which writes
to standard output.
-/

namespace Ldp

open Framework

/-- `printMessage`: `std::cout << message << std::endl`. -/
def printMessage (stdout message : List UInt8) : List UInt8 := stdout ++ message ++ [newline]

/-- The two endpoints and the network, what is left of each standard input, and what has been
written to each standard output. -/
structure Session where
  chat : Chat
  stdin : Side → List UInt8
  stdout : Side → List UInt8

namespace Session

/-- The two programs before their loops, each with its standard input. -/
def start (party : Side → Party) (content : Side → List UInt8) : Session where
  chat := .start fun side => { party side with callers := 1 }
  stdin := content
  stdout _ := []

/-- What can happen next: the loop on a side begins another pass, with what the memory of its
array holds, or something happens to the endpoints or the network that is not a call of
`send`. -/
inductive Event
  | pass (side : Side) (message : Vector UInt8 MAXBUFLEN)
  | chat (e : Chat.Event)

/-- The strings that a step from `c` to `c'` has passed to `onMessage` on a side. -/
def passed (c c' : Chat) (side : Side) : List (List UInt8) :=
  (c'.endpoint side).delivered.drop (c.endpoint side).delivered.length

/-- One step. -/
def step (net : Network) (s : Session) : Event → Option Session
  | .pass side message => do
    let (message, stdin) := fgets message (s.stdin side)
    let string ← stringOf message
    let chat ← s.chat.step net (.act side (.call 0 string))
    some { s with chat, stdin := Function.update s.stdin side stdin }
  | .chat (.act _ (.call ..)) => none
  | .chat e => do
    let chat ← s.chat.step net e
    some { s with chat, stdout := fun side => (passed s.chat chat side).foldl printMessage (s.stdout side) }

/-- The event does not begin a pass at the end of standard input. -/
def BeforeEnd (s : Session) : Event → Prop
  | .pass side _ => s.stdin side ≠ []
  | .chat _ => True

instance (s : Session) (e : Event) : Decidable (s.BeforeEnd e) :=
  match e with
  | .pass side _ => inferInstanceAs (Decidable (s.stdin side ≠ []))
  | .chat _ => inferInstanceAs (Decidable True)

end Session
end Ldp
