import Ldp.Proof.Queues

/-!
# The message queue is safe

Whatever datagrams arrive and however the receiver and the consumer interleave,
`receivedMessageQueue` is a bounded queue without loss: it has at most 13 strings,
is not empty when its front is taken, and its semaphores account for every slot; a
corrupted datagram does not show in it; and the payloads of the uncorrupted
packets are delivered in the order in which they arrived
(`receivedMessageQueue_safe`).
-/

namespace Ldp

open Framework Framework.BoundedBuffer

/-- The string that the receiver holds and has not queued. -/
def ReceiverPc.held : ReceiverPc → List (List UInt8)
  | .received packet | .slot packet | .locked packet => [packet.payload.toList]
  | .listening | .pushed _ | .unlocked _ => []

/-- The string that the consumer has popped and not passed to `onMessage`. -/
def ConsumerPc.held : ConsumerPc → List (List UInt8)
  | .popped message | .unlocked message | .deliver message => [message]
  | .wait | .slot | .locked => []

namespace Endpoint

/-- The payloads of the uncorrupted packets received. -/
def accepted (s : Endpoint) : List (List UInt8) :=
  (s.received.filter (!·.2.isCorrupted)).map (·.2.payload.toList)

/-- The strings queued and held by the receiver are the payloads accepted; those
popped are the ones delivered and held by the consumer. -/
structure Passes (s : Endpoint) : Prop where
  queued : s.queued ++ s.receiver.held = s.accepted
  dequeued : s.delivered ++ s.consumer.held = s.dequeued

variable {host : ByteOrder} {s s' : Endpoint}

theorem arrive_passes {source : Sockaddr} {datagram : List UInt8} {buf : Vector UInt8 LDP_PACKET_SIZE}
    (hi : s.Passes) (h : s.arrive host source datagram buf s.receiver = some s') : s'.Passes := by
  obtain ⟨⟨hr, -⟩, rfl⟩ := arrive_eq.mp h
  refine ⟨?_, hi.dequeued⟩
  have hq := hi.queued
  rw [hr, ReceiverPc.held, List.append_nil] at hq
  by_cases hc : (arrival host datagram buf).isCorrupted = true
  · simp [accepted, hc, ReceiverPc.held, hq]
  · simp [accepted, hc, ReceiverPc.held, hq]

theorem ldpPacketReceiver_passes (hi : s.Passes) (h : s.ldpPacketReceiver s.receiver = some s') :
    s'.Passes := by
  have hq := hi.queued
  cases hr : s.receiver with
  | listening => simp only [hr, ldpPacketReceiver, reduceCtorEq] at h
  | received packet | slot packet =>
    rw [hr] at h hq
    obtain ⟨_, -, h⟩ := Option.bind_eq_some_iff.mp h
    obtain rfl := Option.some.inj h
    exact ⟨hq, hi.dequeued⟩
  | locked packet =>
    rw [hr] at h hq
    obtain rfl := Option.some.inj h
    exact ⟨(List.append_nil _).trans hq, hi.dequeued⟩
  | pushed packet | unlocked packet =>
    rw [hr] at h hq
    obtain rfl := Option.some.inj h
    exact ⟨hq, hi.dequeued⟩

theorem messageConsumer_passes (hi : s.Passes) (h : s.messageConsumer s.consumer = some s') :
    s'.Passes := by
  have hd := hi.dequeued
  cases hc : s.consumer with
  | wait | slot =>
    rw [hc] at h hd
    obtain ⟨_, -, h⟩ := Option.bind_eq_some_iff.mp h
    obtain rfl := Option.some.inj h
    exact ⟨hi.queued, hd⟩
  | locked =>
    rw [hc] at h hd
    simp only [messageConsumer] at h
    split at h
    · simp only [reduceCtorEq] at h
    · obtain rfl := Option.some.inj h
      refine ⟨hi.queued, ?_⟩
      rw [ConsumerPc.held, List.append_nil] at hd
      simp only [ConsumerPc.held, hd]
  | popped message | unlocked message =>
    rw [hc] at h hd
    obtain rfl := Option.some.inj h
    exact ⟨hi.queued, hd⟩
  | deliver message =>
    rw [hc] at h hd
    obtain rfl := Option.some.inj h
    exact ⟨hi.queued, (List.append_nil _).trans hd⟩

theorem step_passes {e : Event} (hi : s.Passes) (h : s.step host e = some s') : s'.Passes := by
  cases e with
  | call k message =>
    obtain ⟨pc, -, h⟩ := Option.bind_eq_some_iff.mp h
    obtain ⟨-, rfl⟩ := call_eq h
    exact ⟨hi.queued, hi.dequeued⟩
  | send k memory =>
    obtain ⟨pc, -, h⟩ := Option.bind_eq_some_iff.mp h
    obtain ⟨_, _, _, _, _, _, rfl⟩ := send_eq h
    exact ⟨hi.queued, hi.dequeued⟩
  | sender k stack =>
    obtain ⟨pc, -, h⟩ := Option.bind_eq_some_iff.mp h
    obtain ⟨_, _, _, _, _, _, rfl, -⟩ := ldpPacketSender_eq h
    exact ⟨hi.queued, hi.dequeued⟩
  | arrive source datagram buf => exact arrive_passes hi h
  | receiver => exact ldpPacketReceiver_passes hi h
  | consumer => exact messageConsumer_passes hi h

variable {isClient : Bool} {memory resolved : Sockaddr} {callers : Nat} {evs : List Event}

theorem passes (h : run (step host) (chatter isClient memory resolved callers) evs = some s) : s.Passes :=
  run_induction (fun hi hs => step_passes hi hs) (by cases isClient <;> exact ⟨rfl, rfl⟩) h

/-- What is delivered, held and queued are the payloads accepted, in order. -/
theorem delivery_order (h : run (step host) (chatter isClient memory resolved callers) evs = some s) :
    s.delivered ++ s.consumer.held ++ s.receivedMessageQueue ++ s.receiver.held = s.accepted := by
  have hp := passes h
  have ho : s.dequeued ++ s.receivedMessageQueue = s.queued := (queue_inv h).order
  rw [hp.dequeued, ho, hp.queued]

/-- What the message queue of an endpoint keeps to. -/
structure MessageQueueSafe (host : ByteOrder) (s : Endpoint) : Prop where
  bounded : s.receivedMessageQueue.length ≤ 13
  /-- The front of the queue is there when the consumer takes it. -/
  front : s.consumer = .locked → s.receivedMessageQueue ≠ []
  /-- The full slots: those posted, one that the consumer has taken and not popped, and
  one that the receiver has pushed and not posted. -/
  full : s.receivedMessageQueueFullSlotCount + s.consumer.phase.before.toNat +
    s.receiver.phase.after.toNat = s.receivedMessageQueue.length
  /-- All slots: those of the semaphores, and those held by the two threads. -/
  slots : s.receivedMessageQueueEmptySlotCount + s.receivedMessageQueueFullSlotCount +
    s.receiver.phase.busy.toNat + s.consumer.phase.busy.toNat = 13
  /-- A corrupted datagram does not show: the queue, its semaphores and its mutex stay,
  and the receiver listens again. -/
  corrupted : ∀ source datagram buf s', s.step host (.arrive source datagram buf) = some s' →
    (arrival host datagram buf).isCorrupted = true → s'.queue = s.queue ∧ s'.receiver = .listening
  /-- The payloads of the uncorrupted packets, in the order in which they arrived. -/
  order : s.delivered ++ s.consumer.held ++ s.receivedMessageQueue ++ s.receiver.held = s.accepted

/-- The message queue is safe in every reachable state. -/
theorem receivedMessageQueue_safe
    (h : run (step host) (chatter isClient memory resolved callers) evs = some s) :
    s.MessageQueueSafe host := by
  have hi := queue_inv h
  have hu := hi.used
  have hs := hi.slots
  simp only [queue, countP_singleton] at hu hs
  exact {
    bounded := hi.length_le
    front := fun hc => hi.items_ne_nil (k := 0) (by simp [queue, hc, ConsumerPc.phase])
    full := hu
    slots := hs
    corrupted := fun source datagram buf s' hs hc => by
      obtain ⟨⟨hr, -⟩, rfl⟩ := arrive_eq.mp hs
      simp only [hc, ↓reduceIte, queue, hr, and_self]
    order := delivery_order h }

/-- A datagram arrives, a corrupted one, and the first again; one is delivered, one is queued. -/
def threeArrivals : List Event :=
  [.arrive peerAddress hiDatagram blankBuffer, .receiver, .receiver, .receiver, .receiver, .receiver,
    .consumer, .arrive peerAddress badDatagram blankBuffer, .consumer, .consumer, .consumer,
    .arrive peerAddress hiDatagram blankBuffer, .consumer, .receiver, .consumer, .receiver, .receiver]

theorem receivedMessageQueue_safe_threeArrivals :
    ∃ s, run (step .little) (chatter false peerAddress peerAddress 1) threeArrivals = some s ∧
      s.delivered = [[104, 105, 0, 0, 0, 0, 0, 0]] ∧ s.receivedMessageQueue = s.delivered ∧
      s.MessageQueueSafe .little :=
  ⟨_, rfl, by decide, by decide, receivedMessageQueue_safe
    (show run (step .little) (chatter false peerAddress peerAddress 1) threeArrivals = _ from rfl)⟩

end Endpoint
end Ldp
