import Ldp.Framework.BoundedBuffer
import Ldp.Packet

/-!
# An endpoint and its threads

The `LDP` object of one side of a chat and the threads that work on it, as a step
function. The threads that call `LDP::send` (the one that reads standard input,
and any others) fill `senderWindow`; the threads of `ldpPacketSender` empty it
into `sendto`; the thread of `ldpPacketReceiver` fills `receivedMessageQueue`
from `recvfrom`; the thread of `messageConsumer` empties it into `onMessage`. A
step is one access to what the threads share: a `sem_wait`, the locking of a
mutex, an access to a queue, the unlocking, a `sem_post`. Where `sendto` or
`recvfrom` fails, `exit(1)` ends the run.

The members of the object keep their names. Beyond them the state has the place
where each thread is, and a history of what was called, pushed, sent, received
and delivered, which no step reads.
-/

namespace Ldp

open Framework Framework.BoundedBuffer

abbrev WINDOW_SIZE : Nat := 12
abbrev WINDOW_CONTAINER_MAX_SIZE : Nat := 1024
abbrev MAX_REC_MESSAGE_Q_SIZE : Nat := WINDOW_SIZE + 1

/-- `struct sockaddr`. -/
structure Sockaddr where
  family : UInt16
  data : Vector UInt8 14
  deriving DecidableEq, Repr

/-- Where a thread is in `LDP::send`, with the message and the loop index `i`. -/
inductive SendPc
  /-- Not in `send`. -/
  | idle
  /-- At `i < message.length() + 1`. -/
  | test (message : List UInt8) (i : Nat)
  /-- Past `sem_wait(&senderWindowEmptySlotCount)`. -/
  | slot (message : List UInt8) (i : Nat)
  /-- In the critical section, before and after `emplace_back`. -/
  | locked (message : List UInt8) (i : Nat)
  | pushed (message : List UInt8) (i : Nat)
  /-- Before `sem_post(&senderWindowFullSlotCount)`. -/
  | unlocked (message : List UInt8) (i : Nat)
  /-- At `i += 8`. -/
  | next (message : List UInt8) (i : Nat)
  /-- `i += 8` has overflowed `int`: undefined from here on. -/
  | overflow (message : List UInt8) (i : Nat)
  deriving DecidableEq, Repr

/-- Where a thread is in `ldpPacketSender`. -/
inductive SenderPc
  | wait
  | slot
  | locked
  | popped
  | unlocked
  deriving DecidableEq, Repr

/-- Where the thread of `ldpPacketReceiver` is, with the packet it holds. -/
inductive ReceiverPc
  /-- In `udpReceive`. -/
  | listening
  /-- Before `sem_wait(&receivedMessageQueueEmptySlotCount)`. -/
  | received (packet : LDPPacket)
  | slot (packet : LDPPacket)
  | locked (packet : LDPPacket)
  | pushed (packet : LDPPacket)
  | unlocked (packet : LDPPacket)
  deriving DecidableEq, Repr

/-- Where the thread of `messageConsumer` is, with the message it holds. -/
inductive ConsumerPc
  | wait
  | slot
  | locked
  | popped (message : List UInt8)
  | unlocked (message : List UInt8)
  /-- Past `deliverData`, before the call of `onMessage`. -/
  | deliver (message : List UInt8)
  deriving DecidableEq, Repr

/-- A call of `sendto`: the packet encoded, the destination and the bytes. -/
structure Sendto where
  packet : LDPPacket
  dest : Sockaddr
  datagram : Vector UInt8 LDP_PACKET_SIZE
  deriving DecidableEq, Repr

/-- An `LDP` object, its threads, and the history. The mutexes are held by
producers (callers of `send` by number; the receiver) or consumers (threads of
`ldpPacketSender` by number; the consumer). -/
structure Endpoint where
  isClient : Bool
  isListening : Bool
  chateeSockaddr : Sockaddr
  receivedMessageQueue : List (List UInt8)
  receivedMessageQueueFullSlotCount : Nat
  receivedMessageQueueEmptySlotCount : Nat
  receivedMessageQueueMutex : Option Party
  senderWindow : List LDPPacket
  senderWindowFullSlotCount : Nat
  senderWindowEmptySlotCount : Nat
  senderWindowMutex : Option Party
  callers : List SendPc
  senders : List SenderPc
  receiver : ReceiverPc
  consumer : ConsumerPc
  /-- The messages passed to `send`, each with its caller. -/
  called : List (Nat × List UInt8)
  /-- The packets pushed to `senderWindow`, each with its caller. -/
  pushed : List (Nat × LDPPacket)
  /-- The calls of `sendto`. -/
  sent : List Sendto
  /-- The packets that `udpReceive` has returned, each with its source address. -/
  received : List (Sockaddr × LDPPacket)
  /-- The strings pushed to and popped from `receivedMessageQueue`. -/
  queued : List (List UInt8)
  dequeued : List (List UInt8)
  /-- The strings passed to `onMessage`. -/
  delivered : List (List UInt8)

namespace Endpoint

/-! ## Set-up -/

/-- The object before its constructor runs: `chateeSockaddr` is what the memory holds. -/
def raw (isClient : Bool) (memory : Sockaddr) (callers : Nat) : Endpoint where
  isClient
  isListening := false
  chateeSockaddr := memory
  receivedMessageQueue := []
  receivedMessageQueueFullSlotCount := 0
  receivedMessageQueueEmptySlotCount := 0
  receivedMessageQueueMutex := none
  senderWindow := []
  senderWindowFullSlotCount := 0
  senderWindowEmptySlotCount := 0
  senderWindowMutex := none
  callers := .replicate callers .idle
  senders := []
  receiver := .listening
  consumer := .wait
  called := []
  pushed := []
  sent := []
  received := []
  queued := []
  dequeued := []
  delivered := []

/-- `initializeThreadMhreadEtcMtc`: sets the semaphores and mutexes and starts a
thread of `ldpPacketSender`. -/
def initializeThreadMhreadEtcMtc (s : Endpoint) : Endpoint :=
  { s with
    receivedMessageQueueMutex := none
    receivedMessageQueueEmptySlotCount := MAX_REC_MESSAGE_Q_SIZE
    receivedMessageQueueFullSlotCount := 0
    senderWindowMutex := none
    senderWindowEmptySlotCount := WINDOW_CONTAINER_MAX_SIZE
    senderWindowFullSlotCount := 0
    senders := s.senders ++ [.wait] }

/-- The constructors of `LDP`. -/
def construct (isClient : Bool) (memory : Sockaddr) (callers : Nat) : Endpoint :=
  initializeThreadMhreadEtcMtc (raw isClient memory callers)

/-- `computeChateeAddrInfo`: only a client has an address to resolve. -/
def computeChateeAddrInfo (s : Endpoint) (resolved : Sockaddr) : Endpoint :=
  if s.isClient then { s with chateeSockaddr := resolved } else s

/-- `createAndBindSocket`, which initialises the threads a second time. -/
def createAndBindSocket (s : Endpoint) (resolved : Sockaddr) : Endpoint :=
  initializeThreadMhreadEtcMtc (if s.isClient then computeChateeAddrInfo s resolved else s)

/-- `listen`, which starts the receiver and the consumer. -/
def listen (s : Endpoint) : Endpoint := { s with isListening := true }

/-- The endpoint that the constructors of `Chatter` set up, with a number of
threads that may call `send`; `memory` is what `chateeSockaddr` held before,
`resolved` the address that a client resolves. -/
def chatter (isClient : Bool) (memory resolved : Sockaddr) (callers : Nat) : Endpoint :=
  listen (createAndBindSocket (construct isClient memory callers) resolved)

/-! ## Sending -/

/-- A call of `send` by thread `k`. -/
def call (s : Endpoint) (k : Nat) (message : List UInt8) : SendPc → Option Endpoint
  | .idle => some { s with
      callers := s.callers.set k (.test message 0)
      called := s.called ++ [(k, message)] }
  | _ => none

/-- The next step of `send` in thread `k`; `memory` is what the memory holds in
which a packet is constructed. -/
def send (s : Endpoint) (k : Nat) (memory : LDPPacket) : SendPc → Option Endpoint
  | .idle | .overflow .. => none
  | .test message i =>
    if i < message.length + 1 then do
      let n ← semWait s.senderWindowEmptySlotCount
      some { s with senderWindowEmptySlotCount := n, callers := s.callers.set k (.slot message i) }
    else some { s with callers := s.callers.set k .idle }
  | .slot message i => do
    let mutex ← lock s.senderWindowMutex (.producer k)
    some { s with senderWindowMutex := mutex, callers := s.callers.set k (.locked message i) }
  | .locked message i => do
    let packet ← LDPPacket.ofMessage memory ((cStr message).drop i) (message.length - i + 1)
    some { s with
      senderWindow := s.senderWindow ++ [packet]
      callers := s.callers.set k (.pushed message i)
      pushed := s.pushed ++ [(k, packet)] }
  | .pushed message i =>
    some { s with senderWindowMutex := none, callers := s.callers.set k (.unlocked message i) }
  | .unlocked message i =>
    some { s with
      senderWindowFullSlotCount := semPost s.senderWindowFullSlotCount
      callers := s.callers.set k (.next message i) }
  | .next message i =>
    let pc := if i + 8 ≤ INT_MAX then SendPc.test message (i + 8) else .overflow message i
    some { s with callers := s.callers.set k pc }

/-- `udpSend`: encodes the packet into `encodedMessage` and calls `sendto`. -/
def udpSend (host : ByteOrder) (s : Endpoint) (packet : LDPPacket)
    (encodedMessage : Vector UInt8 LDP_PACKET_SIZE) : Option Sendto := do
  let e ← packet.encode host encodedMessage
  some ⟨packet, s.chateeSockaddr, e.buffer⟩

/-- The next step of thread `k` of `ldpPacketSender`; `stack` is what the buffer
of `udpSend` holds. The front of an empty window is undefined. -/
def ldpPacketSender (host : ByteOrder) (s : Endpoint) (k : Nat) (stack : Vector UInt8 LDP_PACKET_SIZE) :
    SenderPc → Option Endpoint
  | .wait => do
    let n ← semWait s.senderWindowFullSlotCount
    some { s with senderWindowFullSlotCount := n, senders := s.senders.set k .slot }
  | .slot => do
    let mutex ← lock s.senderWindowMutex (.consumer k)
    some { s with senderWindowMutex := mutex, senders := s.senders.set k .locked }
  | .locked =>
    match s.senderWindow with
    | [] => none
    | packet :: window => do
      let sendto ← udpSend host s packet stack
      some { s with
        senderWindow := window, senders := s.senders.set k .popped, sent := s.sent ++ [sendto] }
  | .popped => some { s with senderWindowMutex := none, senders := s.senders.set k .unlocked }
  | .unlocked =>
    some { s with
      senderWindowEmptySlotCount := semPost s.senderWindowEmptySlotCount
      senders := s.senders.set k .wait }

/-! ## Receiving -/

/-- What `recvfrom` leaves in a buffer of `LDP_PACKET_SIZE` bytes: the first bytes
of the datagram, and the rest as it was. -/
def recvfrom (buf : Vector UInt8 LDP_PACKET_SIZE) (datagram : List UInt8) :
    Vector UInt8 LDP_PACKET_SIZE :=
  Vector.ofFn fun i => datagram[i.val]?.getD (buf.get i)

/-- `udpReceive`, of a datagram from `source`; `buf` is what its buffer holds. -/
def udpReceive (host : ByteOrder) (s : Endpoint) (source : Sockaddr) (datagram : List UInt8)
    (buf : Vector UInt8 LDP_PACKET_SIZE) : Option (Endpoint × LDPPacket) := do
  let packet ← LDPPacket.decode host (recvfrom buf datagram) 8
  some ({ s with chateeSockaddr := source, received := s.received ++ [(source, packet)] }, packet)

/-- `udpReceive` returns in `ldpPacketReceiver`, and the packet is dropped if it is
corrupted. -/
def arrive (host : ByteOrder) (s : Endpoint) (source : Sockaddr) (datagram : List UInt8)
    (buf : Vector UInt8 LDP_PACKET_SIZE) : ReceiverPc → Option Endpoint
  | .listening =>
    if s.isListening then do
      let (s, packet) ← udpReceive host s source datagram buf
      some { s with receiver := if packet.isCorrupted then .listening else .received packet }
    else none
  | _ => none

/-- The next step of `ldpPacketReceiver` with a packet. -/
def ldpPacketReceiver (s : Endpoint) : ReceiverPc → Option Endpoint
  | .listening => none
  | .received packet => do
    let n ← semWait s.receivedMessageQueueEmptySlotCount
    some { s with receivedMessageQueueEmptySlotCount := n, receiver := .slot packet }
  | .slot packet => do
    let mutex ← lock s.receivedMessageQueueMutex (.producer 0)
    some { s with receivedMessageQueueMutex := mutex, receiver := .locked packet }
  | .locked packet =>
    let message := packet.payload.toList
    some { s with
      receivedMessageQueue := s.receivedMessageQueue ++ [message]
      receiver := .pushed packet
      queued := s.queued ++ [message] }
  | .pushed packet => some { s with receivedMessageQueueMutex := none, receiver := .unlocked packet }
  | .unlocked _ =>
    some { s with
      receivedMessageQueueFullSlotCount := semPost s.receivedMessageQueueFullSlotCount
      receiver := .listening }

/-- The next step of `messageConsumer`: those of `deliverData`, and the call of
`onMessage`. The front of an empty queue is undefined. -/
def messageConsumer (s : Endpoint) : ConsumerPc → Option Endpoint
  | .wait => do
    let n ← semWait s.receivedMessageQueueFullSlotCount
    some { s with receivedMessageQueueFullSlotCount := n, consumer := .slot }
  | .slot => do
    let mutex ← lock s.receivedMessageQueueMutex (.consumer 0)
    some { s with receivedMessageQueueMutex := mutex, consumer := .locked }
  | .locked =>
    match s.receivedMessageQueue with
    | [] => none
    | message :: queue =>
      some { s with
        receivedMessageQueue := queue, consumer := .popped message, dequeued := s.dequeued ++ [message] }
  | .popped message =>
    some { s with receivedMessageQueueMutex := none, consumer := .unlocked message }
  | .unlocked message =>
    some { s with
      receivedMessageQueueEmptySlotCount := semPost s.receivedMessageQueueEmptySlotCount
      consumer := .deliver message }
  | .deliver message =>
    some { s with consumer := .wait, delivered := s.delivered ++ [message] }

/-! ## Steps -/

/-- What can happen next: a thread calls `send`, a thread takes its next step, or a
datagram arrives; with what the memory holds that the step leaves partly
unwritten. -/
inductive Event
  | call (k : Nat) (message : List UInt8)
  | send (k : Nat) (memory : LDPPacket)
  | sender (k : Nat) (stack : Vector UInt8 LDP_PACKET_SIZE)
  | arrive (source : Sockaddr) (datagram : List UInt8) (buf : Vector UInt8 LDP_PACKET_SIZE)
  | receiver
  | consumer

/-- One step. -/
def step (host : ByteOrder) (s : Endpoint) : Event → Option Endpoint
  | .call k message => s.callers[k]?.bind (s.call k message)
  | .send k memory => s.callers[k]?.bind (s.send k memory)
  | .sender k stack => s.senders[k]?.bind (s.ldpPacketSender host k stack)
  | .arrive source datagram buf => s.arrive host source datagram buf s.receiver
  | .receiver => s.ldpPacketReceiver s.receiver
  | .consumer => s.messageConsumer s.consumer

end Endpoint
end Ldp
