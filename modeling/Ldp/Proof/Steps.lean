import Ldp.Endpoint
import Ldp.Framework.Parts
import Ldp.Proof.Codec

/-!
# What the steps of an endpoint change

For each thread, the members that a step of it may change, and with them the
history that it may extend: the callers of `send` change the window and what has
been pushed (`send_eq`), the threads of `ldpPacketSender` the window and what has
been sent (`ldpPacketSender_eq`), an arrival the address of the peer and what has
been received (`arrive_eq`), the receiver and the consumer the message queue
(`ldpPacketReceiver_eq`, `messageConsumer_eq`). All else is as it was, and does not matter
to the step either (`call_framed` and the others).
-/

namespace Ldp.Endpoint

open Framework Framework.BoundedBuffer

variable {host : ByteOrder} {s s' : Endpoint} {k : Nat}

theorem call_eq {message : List UInt8} {pc : SendPc} (h : s.call k message pc = some s') :
    pc = .idle ∧ s' = { s with
      callers := s.callers.set k (.test message 0)
      called := s.called ++ [(k, message)] } := by
  cases pc <;> simp only [call, reduceCtorEq, Option.some.injEq] at h
  exact ⟨rfl, h.symm⟩

theorem send_eq {memory : LDPPacket} {pc : SendPc} (h : s.send k memory pc = some s') :
    ∃ empty full mutex window callers pushed, s' = { s with
      senderWindowEmptySlotCount := empty
      senderWindowFullSlotCount := full
      senderWindowMutex := mutex
      senderWindow := window
      callers
      pushed } := by
  cases pc with
  | idle | overflow message i => simp only [send, reduceCtorEq] at h
  | test message i =>
    simp only [send] at h
    split at h
    · obtain ⟨_, -, h⟩ := Option.bind_eq_some_iff.mp h
      exact ⟨_, _, _, _, _, _, (Option.some.inj h).symm⟩
    · exact ⟨_, _, _, _, _, _, (Option.some.inj h).symm⟩
  | slot message i | locked message i =>
    obtain ⟨_, -, h⟩ := Option.bind_eq_some_iff.mp h
    exact ⟨_, _, _, _, _, _, (Option.some.inj h).symm⟩
  | pushed message i | unlocked message i | next message i =>
    exact ⟨_, _, _, _, _, _, (Option.some.inj h).symm⟩

/-- A thread of `ldpPacketSender` sends when it is at the front of the window in
the critical section, and then the wire form of the packet there, to
`chateeSockaddr`. -/
theorem ldpPacketSender_eq {stack : Vector UInt8 LDP_PACKET_SIZE} {pc : SenderPc}
    (h : s.ldpPacketSender host k stack pc = some s') :
    ∃ empty full mutex window senders sent, s' = { s with
        senderWindowEmptySlotCount := empty
        senderWindowFullSlotCount := full
        senderWindowMutex := mutex
        senderWindow := window
        senders
        sent } ∧
      (pc ≠ .locked ∧ sent = s.sent ∨
        pc = .locked ∧ ∃ packet, sent = s.sent ++ [⟨packet, s.chateeSockaddr, packet.wire host⟩]) := by
  cases pc with
  | wait | slot =>
    obtain ⟨_, -, h⟩ := Option.bind_eq_some_iff.mp h
    exact ⟨_, _, _, _, _, _, (Option.some.inj h).symm, .inl ⟨nofun, rfl⟩⟩
  | locked =>
    simp only [ldpPacketSender] at h
    split at h
    · simp only [reduceCtorEq] at h
    · rename_i packet window hw
      simp only [udpSend, LDPPacket.encode_eq, Option.bind_eq_bind, Option.bind_some,
        Option.some.injEq] at h
      exact ⟨_, _, _, _, _, _, h.symm, .inr ⟨rfl, packet, rfl⟩⟩
  | popped | unlocked => exact ⟨_, _, _, _, _, _, (Option.some.inj h).symm, .inl ⟨nofun, rfl⟩⟩

/-- The packet that `udpReceive` returns. -/
def arrival (host : ByteOrder) (datagram : List UInt8) (buf : Vector UInt8 LDP_PACKET_SIZE) : LDPPacket :=
  LDPPacket.decoded host (recvfrom buf datagram)

theorem arrive_eq {source : Sockaddr} {datagram : List UInt8} {buf : Vector UInt8 LDP_PACKET_SIZE} :
    s.arrive host source datagram buf s.receiver = some s' ↔
      (s.receiver = .listening ∧ s.isListening = true) ∧
        s' = { s with
          chateeSockaddr := source
          received := s.received ++ [(source, arrival host datagram buf)]
          receiver :=
            if (arrival host datagram buf).isCorrupted then .listening
            else .received (arrival host datagram buf) } := by
  by_cases hr : s.receiver = .listening
  · simp only [hr, arrive, udpReceive, LDPPacket.decode_eq, Option.bind_eq_bind, Option.bind_some]
    by_cases hl : s.isListening = true
    · simp only [hl, ↓reduceIte, Option.some.injEq, true_and]
      exact eq_comm
    · simp only [hl, Bool.false_eq_true, ↓reduceIte, reduceCtorEq, and_false, false_and]
  · refine iff_of_false ?_ fun h => hr h.1.1
    cases hs : s.receiver <;> simp_all [arrive]

theorem ldpPacketReceiver_eq {pc : ReceiverPc} (h : s.ldpPacketReceiver pc = some s') :
    ∃ empty full mutex queue receiver queued, s' = { s with
      receivedMessageQueueEmptySlotCount := empty
      receivedMessageQueueFullSlotCount := full
      receivedMessageQueueMutex := mutex
      receivedMessageQueue := queue
      receiver
      queued } := by
  cases pc with
  | listening => simp only [ldpPacketReceiver, reduceCtorEq] at h
  | received packet | slot packet =>
    obtain ⟨_, -, h⟩ := Option.bind_eq_some_iff.mp h
    exact ⟨_, _, _, _, _, _, (Option.some.inj h).symm⟩
  | locked packet | pushed packet | unlocked packet =>
    exact ⟨_, _, _, _, _, _, (Option.some.inj h).symm⟩

theorem messageConsumer_eq {pc : ConsumerPc} (h : s.messageConsumer pc = some s') :
    ∃ empty full mutex queue consumer dequeued delivered, s' = { s with
      receivedMessageQueueEmptySlotCount := empty
      receivedMessageQueueFullSlotCount := full
      receivedMessageQueueMutex := mutex
      receivedMessageQueue := queue
      consumer
      dequeued
      delivered } := by
  cases pc with
  | wait | slot =>
    obtain ⟨_, -, h⟩ := Option.bind_eq_some_iff.mp h
    exact ⟨_, _, _, _, _, _, _, (Option.some.inj h).symm⟩
  | locked =>
    simp only [messageConsumer] at h
    split at h
    · simp only [reduceCtorEq] at h
    · exact ⟨_, _, _, _, _, _, _, (Option.some.inj h).symm⟩
  | popped message | unlocked message | deliver message =>
    exact ⟨_, _, _, _, _, _, _, (Option.some.inj h).symm⟩

/-! ## What does not matter to a step -/

/-- `f` with what a call of `send`, and each step of it but the one in the critical section,
works on from `s`. -/
def callerPart (f s : Endpoint) : Endpoint :=
  { f with
    senderWindowFullSlotCount := s.senderWindowFullSlotCount
    senderWindowEmptySlotCount := s.senderWindowEmptySlotCount
    senderWindowMutex := s.senderWindowMutex
    callers := s.callers
    called := s.called }

/-- The same of `ldpPacketSender`. -/
def senderPart (f s : Endpoint) : Endpoint :=
  { f with
    senderWindowFullSlotCount := s.senderWindowFullSlotCount
    senderWindowEmptySlotCount := s.senderWindowEmptySlotCount
    senderWindowMutex := s.senderWindowMutex
    senders := s.senders }

def arrivalPart (f s : Endpoint) : Endpoint :=
  { f with
    isListening := s.isListening
    chateeSockaddr := s.chateeSockaddr
    receiver := s.receiver
    received := s.received }

def receiverPart (f s : Endpoint) : Endpoint :=
  { f with
    receivedMessageQueue := s.receivedMessageQueue
    receivedMessageQueueFullSlotCount := s.receivedMessageQueueFullSlotCount
    receivedMessageQueueEmptySlotCount := s.receivedMessageQueueEmptySlotCount
    receivedMessageQueueMutex := s.receivedMessageQueueMutex
    receiver := s.receiver
    queued := s.queued }

def consumerPart (f s : Endpoint) : Endpoint :=
  { f with
    receivedMessageQueue := s.receivedMessageQueue
    receivedMessageQueueFullSlotCount := s.receivedMessageQueueFullSlotCount
    receivedMessageQueueEmptySlotCount := s.receivedMessageQueueEmptySlotCount
    receivedMessageQueueMutex := s.receivedMessageQueueMutex
    consumer := s.consumer
    dequeued := s.dequeued
    delivered := s.delivered }

theorem call_framed (k : Nat) (message : List UInt8) (pc : SendPc) :
    Framed callerPart (·.call k message pc) where
  self _ := rfl
  frame f s := by cases pc <;> rfl

theorem send_framed (memory : LDPPacket) {pc : SendPc} (hpc : ∀ message i, pc ≠ .locked message i) :
    Framed callerPart (·.send k memory pc) where
  self _ := rfl
  frame f s := by
    cases pc with
    | idle | overflow message i => rfl
    | test message i =>
      simp only [send]
      split
      · rw [show (callerPart f s).senderWindowEmptySlotCount = s.senderWindowEmptySlotCount from rfl]
        cases semWait s.senderWindowEmptySlotCount <;> rfl
      · rfl
    | slot message i =>
      simp only [send]
      rw [show (callerPart f s).senderWindowMutex = s.senderWindowMutex from rfl]
      cases lock s.senderWindowMutex (.producer k) <;> rfl
    | locked message i => exact absurd rfl (hpc message i)
    | pushed message i | unlocked message i | next message i => rfl

theorem ldpPacketSender_framed (stack : Vector UInt8 LDP_PACKET_SIZE) {pc : SenderPc} (hpc : pc ≠ .locked) :
    Framed senderPart (·.ldpPacketSender host k stack pc) where
  self _ := rfl
  frame f s := by
    cases pc with
    | wait =>
      simp only [ldpPacketSender]
      rw [show (senderPart f s).senderWindowFullSlotCount = s.senderWindowFullSlotCount from rfl]
      cases semWait s.senderWindowFullSlotCount <;> rfl
    | slot =>
      simp only [ldpPacketSender]
      rw [show (senderPart f s).senderWindowMutex = s.senderWindowMutex from rfl]
      cases lock s.senderWindowMutex (.consumer k) <;> rfl
    | locked => exact absurd rfl hpc
    | popped | unlocked => rfl

theorem arrive_framed (source : Sockaddr) (datagram : List UInt8) (buf : Vector UInt8 LDP_PACKET_SIZE) :
    Framed arrivalPart (·.step host (.arrive source datagram buf)) where
  self _ := rfl
  frame f s := by
    simp only [step]
    rw [show (arrivalPart f s).receiver = s.receiver from rfl]
    cases s.receiver with
    | listening =>
      simp only [arrive]
      rw [show (arrivalPart f s).isListening = s.isListening from rfl]
      split
      · simp only [udpReceive, LDPPacket.decode_eq, Option.bind_eq_bind, Option.bind_some, Option.map_some,
          arrivalPart]
      · rfl
    | received packet | slot packet | locked packet | pushed packet | unlocked packet => rfl

theorem ldpPacketReceiver_framed : Framed receiverPart (·.step host .receiver) where
  self _ := rfl
  frame f s := by
    simp only [step]
    rw [show (receiverPart f s).receiver = s.receiver from rfl]
    cases s.receiver with
    | listening => rfl
    | received packet =>
      simp only [ldpPacketReceiver]
      rw [show (receiverPart f s).receivedMessageQueueEmptySlotCount =
        s.receivedMessageQueueEmptySlotCount from rfl]
      cases semWait s.receivedMessageQueueEmptySlotCount <;> rfl
    | slot packet =>
      simp only [ldpPacketReceiver]
      rw [show (receiverPart f s).receivedMessageQueueMutex = s.receivedMessageQueueMutex from rfl]
      cases lock s.receivedMessageQueueMutex (.producer 0) <;> rfl
    | locked packet | pushed packet | unlocked packet => rfl

theorem messageConsumer_framed : Framed consumerPart (·.step host .consumer) where
  self _ := rfl
  frame f s := by
    simp only [step]
    rw [show (consumerPart f s).consumer = s.consumer from rfl]
    cases s.consumer with
    | wait =>
      simp only [messageConsumer]
      rw [show (consumerPart f s).receivedMessageQueueFullSlotCount =
        s.receivedMessageQueueFullSlotCount from rfl]
      cases semWait s.receivedMessageQueueFullSlotCount <;> rfl
    | slot =>
      simp only [messageConsumer]
      rw [show (consumerPart f s).receivedMessageQueueMutex = s.receivedMessageQueueMutex from rfl]
      cases lock s.receivedMessageQueueMutex (.consumer 0) <;> rfl
    | locked =>
      simp only [messageConsumer]
      rw [show (consumerPart f s).receivedMessageQueue = s.receivedMessageQueue from rfl]
      cases s.receivedMessageQueue <;> rfl
    | popped message | unlocked message | deliver message => rfl

/-! ## Any step -/

/-- A datagram arrives. -/
def Event.isArrive : Event → Bool
  | .arrive .. => true
  | _ => false

theorem Event.isArrive_iff {e : Event} :
    e.isArrive = true ↔ ∃ source datagram buf, e = .arrive source datagram buf := by
  cases e <;> simp [isArrive]

/-- A thread calls `send`, or takes a step of it. -/
def Event.isCaller : Event → Bool
  | .call .. | .send .. => true
  | _ => false

/-- What a step sends: nothing, or, where a thread of `ldpPacketSender` is at the front
of the window, a packet to `chateeSockaddr`. -/
theorem step_sent {e : Event} (h : s.step host e = some s') :
    s'.sent = s.sent ∨ ∃ k stack packet, e = .sender k stack ∧ s.senders[k]? = some .locked ∧
      s'.sent = s.sent ++ [⟨packet, s.chateeSockaddr, packet.wire host⟩] := by
  cases e with
  | call k message =>
    obtain ⟨pc, -, h⟩ := Option.bind_eq_some_iff.mp h
    obtain ⟨-, rfl⟩ := call_eq h
    exact .inl rfl
  | send k memory =>
    obtain ⟨pc, -, h⟩ := Option.bind_eq_some_iff.mp h
    obtain ⟨_, _, _, _, _, _, rfl⟩ := send_eq h
    exact .inl rfl
  | sender k stack =>
    obtain ⟨pc, hk, h⟩ := Option.bind_eq_some_iff.mp h
    obtain ⟨_, _, _, _, _, _, rfl, ⟨-, rfl⟩ | ⟨rfl, packet, rfl⟩⟩ := ldpPacketSender_eq h
    · exact .inl rfl
    · exact .inr ⟨k, stack, packet, rfl, hk, rfl⟩
  | arrive source datagram buf =>
    obtain ⟨-, rfl⟩ := arrive_eq.mp h
    exact .inl rfl
  | receiver =>
    obtain ⟨_, _, _, _, _, _, rfl⟩ := ldpPacketReceiver_eq h
    exact .inl rfl
  | consumer =>
    obtain ⟨_, _, _, _, _, _, _, rfl⟩ := messageConsumer_eq h
    exact .inl rfl

/-- A step that is not an arrival receives nothing, and keeps the address. -/
theorem step_received {e : Event} (h : s.step host e = some s') (he : e.isArrive = false) :
    s'.received = s.received ∧ s'.chateeSockaddr = s.chateeSockaddr := by
  cases e with
  | call k message =>
    obtain ⟨pc, -, h⟩ := Option.bind_eq_some_iff.mp h
    obtain ⟨-, rfl⟩ := call_eq h
    exact ⟨rfl, rfl⟩
  | send k memory =>
    obtain ⟨pc, -, h⟩ := Option.bind_eq_some_iff.mp h
    obtain ⟨_, _, _, _, _, _, rfl⟩ := send_eq h
    exact ⟨rfl, rfl⟩
  | sender k stack =>
    obtain ⟨pc, -, h⟩ := Option.bind_eq_some_iff.mp h
    obtain ⟨_, _, _, _, _, _, rfl, -⟩ := ldpPacketSender_eq h
    exact ⟨rfl, rfl⟩
  | arrive source datagram buf => exact absurd he.symm Bool.false_ne_true
  | receiver =>
    obtain ⟨_, _, _, _, _, _, rfl⟩ := ldpPacketReceiver_eq h
    exact ⟨rfl, rfl⟩
  | consumer =>
    obtain ⟨_, _, _, _, _, _, _, rfl⟩ := messageConsumer_eq h
    exact ⟨rfl, rfl⟩

/-- A step that is no caller's leaves the callers of `send`, and what they have called and
pushed, as they were. -/
theorem step_callers {e : Event} (h : s.step host e = some s') (he : e.isCaller = false) :
    s'.callers = s.callers ∧ s'.called = s.called ∧ s'.pushed = s.pushed := by
  cases e with
  | call k message | send k memory => exact absurd he.symm Bool.false_ne_true
  | sender k stack =>
    obtain ⟨pc, -, h⟩ := Option.bind_eq_some_iff.mp h
    obtain ⟨_, _, _, _, _, _, rfl, -⟩ := ldpPacketSender_eq h
    exact ⟨rfl, rfl, rfl⟩
  | arrive source datagram buf =>
    obtain ⟨-, rfl⟩ := arrive_eq.mp h
    exact ⟨rfl, rfl, rfl⟩
  | receiver =>
    obtain ⟨_, _, _, _, _, _, rfl⟩ := ldpPacketReceiver_eq h
    exact ⟨rfl, rfl, rfl⟩
  | consumer =>
    obtain ⟨_, _, _, _, _, _, _, rfl⟩ := messageConsumer_eq h
    exact ⟨rfl, rfl, rfl⟩

end Ldp.Endpoint

namespace Ldp

/-! ## Inputs of the runs that serve as examples -/

def peerAddress : Sockaddr := ⟨2, #v[20, 80, 127, 0, 0, 1, 0, 0, 0, 0, 0, 0, 0, 0]⟩
def strangerAddress : Sockaddr := ⟨2, #v[20, 80, 10, 0, 0, 9, 0, 0, 0, 0, 0, 0, 0, 0]⟩

/-- What the memory of an object holds before its constructor runs. -/
def garbageAddress : Sockaddr := ⟨0, Vector.replicate 14 255⟩

/-- Memory that was zero. -/
def blankPacket : LDPPacket := ⟨0, false, false, false, 0, 0, Vector.replicate 8 0, false⟩
def blankBuffer : Vector UInt8 LDP_PACKET_SIZE := Vector.replicate 15 0

/-- The datagram of the message `hi`, sent from memory that was zero, and the same
with another flags byte. -/
def hiDatagram : List UInt8 := [148, 0, 3, 0, 123, 3, 21, 104, 105, 0, 0, 0, 0, 0, 0]
def badDatagram : List UInt8 := [148, 0, 7, 0, 123, 3, 21, 104, 105, 0, 0, 0, 0, 0, 0]

end Ldp
