import Ldp.Proof.MessageQueue

/-!
# An endpoint without semaphores and mutexes

What an endpoint is for, as a specification: two bounded queues, and each operation on them
in one event. `send` puts the packets of a message into the window one at a time, between
those of other callers; `sendto` takes the packet at the front and sends it to the address
that the endpoint has then; a datagram is taken from the network when no packet is held, and
the packet held goes to the message queue; the consumer holds one string at a time.
There are no threads that wait: an event happens where there is room or something to take.
The history is that of an endpoint.
-/

namespace Ldp

open Framework

/-- A caller of `send`: in no call, about to put in the packet from index `i` of a message or
to return, or stuck past an overflow of the index. -/
inductive Caller
  | idle
  | sending (message : List UInt8) (i : Nat)
  | overflow (message : List UInt8) (i : Nat)
  deriving DecidableEq, Repr

/-- The caller once the packet from index `i` is in. -/
def Caller.next (message : List UInt8) (i : Nat) : Caller :=
  if i + 8 ≤ INT_MAX then .sending message (i + 8) else .overflow message i

structure Atomic where
  address : Sockaddr
  callers : List Caller
  window : List LDPPacket
  /-- The packet taken from the network. -/
  packet : Option LDPPacket
  queue : List (List UInt8)
  /-- The string taken from the queue. -/
  message : Option (List UInt8)
  called : List (Nat × List UInt8)
  pushed : List (Nat × LDPPacket)
  sent : List Sendto
  received : List (Sockaddr × LDPPacket)
  queued : List (List UInt8)
  dequeued : List (List UInt8)
  delivered : List (List UInt8)

namespace Atomic

inductive Event
  | call (k : Nat) (message : List UInt8)
  | push (k : Nat) (memory : LDPPacket)
  | finish (k : Nat)
  | sendto
  | arrive (source : Sockaddr) (datagram : List UInt8) (buf : Vector UInt8 LDP_PACKET_SIZE)
  | queue
  | dequeue
  | deliver

/-- One event. -/
def step (host : ByteOrder) (a : Atomic) : Event → Option Atomic
  | .call k message =>
    if a.callers[k]? = some .idle then
      some { a with
        callers := a.callers.set k (.sending message 0)
        called := a.called ++ [(k, message)] }
    else none
  | .push k memory =>
    match a.callers[k]? with
    | some (.sending message i) =>
      if i < message.length + 1 ∧ a.window.length < WINDOW_CONTAINER_MAX_SIZE then do
        let packet ← LDPPacket.ofMessage memory ((cStr message).drop i) (message.length - i + 1)
        some { a with
          callers := a.callers.set k (.next message i)
          window := a.window ++ [packet]
          pushed := a.pushed ++ [(k, packet)] }
      else none
    | _ => none
  | .finish k =>
    match a.callers[k]? with
    | some (.sending message i) =>
      if i < message.length + 1 then none else some { a with callers := a.callers.set k .idle }
    | _ => none
  | .sendto =>
    match a.window with
    | [] => none
    | packet :: window =>
      some { a with window, sent := a.sent ++ [⟨packet, a.address, packet.wire host⟩] }
  | .arrive source datagram buf =>
    if a.packet = none then
      let packet := Endpoint.arrival host datagram buf
      some { a with
        address := source
        packet := if packet.isCorrupted then none else some packet
        received := a.received ++ [(source, packet)] }
    else none
  | .queue =>
    match a.packet with
    | none => none
    | some packet =>
      if a.queue.length < MAX_REC_MESSAGE_Q_SIZE then
        some { a with
          packet := none
          queue := a.queue ++ [packet.payload.toList]
          queued := a.queued ++ [packet.payload.toList] }
      else none
  | .dequeue =>
    match a.message, a.queue with
    | none, message :: queue =>
      some { a with queue, message := some message, dequeued := a.dequeued ++ [message] }
    | _, _ => none
  | .deliver =>
    a.message.map fun message => { a with message := none, delivered := a.delivered ++ [message] }

/-- Nothing has happened yet. -/
def start (address : Sockaddr) (callers : Nat) : Atomic where
  address
  callers := .replicate callers .idle
  window := []
  packet := none
  queue := []
  message := none
  called := []
  pushed := []
  sent := []
  received := []
  queued := []
  dequeued := []
  delivered := []

end Atomic

/-! ## What is seen of an endpoint -/

/-- From its `emplace_back` on, a caller is past the packet. -/
def SendPc.caller : SendPc → Caller
  | .idle => .idle
  | .test message i | .slot message i | .locked message i => .sending message i
  | .pushed message i | .unlocked message i | .next message i => .next message i
  | .overflow message i => .overflow message i

/-- The packet that the receiver holds, up to the push. -/
def ReceiverPc.packet : ReceiverPc → Option LDPPacket
  | .received packet | .slot packet | .locked packet => some packet
  | .listening | .pushed _ | .unlocked _ => none

/-- The string that the consumer holds, from the pop on. -/
def ConsumerPc.message : ConsumerPc → Option (List UInt8)
  | .popped message | .unlocked message | .deliver message => some message
  | .wait | .slot | .locked => none

namespace Endpoint

/-- An endpoint as an atomic one. -/
def atomic (s : Endpoint) : Atomic where
  address := s.chateeSockaddr
  callers := s.callers.map SendPc.caller
  window := s.senderWindow
  packet := s.receiver.packet
  queue := s.receivedMessageQueue
  message := s.consumer.message
  called := s.called
  pushed := s.pushed
  sent := s.sent
  received := s.received
  queued := s.queued
  dequeued := s.dequeued
  delivered := s.delivered

/-- What a step shows: the access to a queue, and what comes from outside or goes there. -/
def shown (s : Endpoint) : Event → List Atomic.Event
  | .call k message => [.call k message]
  | .send k memory =>
    match s.callers[k]? with
    | some (.locked ..) => [.push k memory]
    | some (.test message i) => if i < message.length + 1 then [] else [.finish k]
    | _ => []
  | .sender k _ => if s.senders[k]? = some .locked then [.sendto] else []
  | .arrive source datagram buf => [.arrive source datagram buf]
  | .receiver =>
    match s.receiver with
    | .locked _ => [.queue]
    | _ => []
  | .consumer =>
    match s.consumer with
    | .locked => [.dequeue]
    | .deliver _ => [.deliver]
    | _ => []

end Endpoint

/-! ## An endpoint that represents an atomic one -/

/-- A caller before its next wait. -/
def Caller.pc : Caller → SendPc
  | .idle => .idle
  | .sending message i => .test message i
  | .overflow message i => .overflow message i

/-- The endpoint whose queues are those of `a`, with every thread before its next wait, or
with what it holds. -/
def Atomic.endpoint (isClient : Bool) (a : Atomic) : Endpoint where
  isClient
  isListening := true
  chateeSockaddr := a.address
  receivedMessageQueue := a.queue
  receivedMessageQueueFullSlotCount := a.queue.length
  receivedMessageQueueEmptySlotCount := MAX_REC_MESSAGE_Q_SIZE - a.queue.length
  receivedMessageQueueMutex := none
  senderWindow := a.window
  senderWindowFullSlotCount := a.window.length
  senderWindowEmptySlotCount := WINDOW_CONTAINER_MAX_SIZE - a.window.length
  senderWindowMutex := none
  callers := a.callers.map Caller.pc
  senders := [.wait, .wait]
  receiver := a.packet.elim .listening .received
  consumer := a.message.elim .wait .deliver
  called := a.called
  pushed := a.pushed
  sent := a.sent
  received := a.received
  queued := a.queued
  dequeued := a.dequeued
  delivered := a.delivered

theorem Caller.caller_pc (c : Caller) : c.pc.caller = c := by cases c <;> rfl

theorem Atomic.atomic_endpoint (isClient : Bool) (a : Atomic) : (a.endpoint isClient).atomic = a := by
  have hcallers : (a.callers.map Caller.pc).map SendPc.caller = a.callers := by
    rw [List.map_map]
    exact List.map_id'' Caller.caller_pc a.callers
  have hpacket : (a.packet.elim ReceiverPc.listening ReceiverPc.received).packet = a.packet := by
    cases a.packet <;> rfl
  have hmessage : (a.message.elim ConsumerPc.wait ConsumerPc.deliver).message = a.message := by
    cases a.message <;> rfl
  simp only [Endpoint.atomic, Atomic.endpoint, hcallers, hpacket, hmessage]

end Ldp
