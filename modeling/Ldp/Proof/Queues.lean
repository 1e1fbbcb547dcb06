import Ldp.Proof.Steps

/-!
# The two queues of an endpoint are bounded buffers

Seen through `window`, an endpoint is a bounded buffer of packets between the
callers of `send` and the threads of `ldpPacketSender`; seen through `queue`, one
of strings between the receiver and the consumer. Each step of the endpoint is a
step of each buffer or does not show there (`window_step`, `queue_step`), so a run
of the endpoint is one of each buffer (`window_run`, `queue_run`), and the invariant
of bounded buffers holds of both in every reachable state (`window_inv`, `queue_inv`).
-/

namespace Ldp

open Framework Framework.BoundedBuffer

/-- Where a caller of `send` is in its round. -/
def SendPc.phase : SendPc → Phase
  | .idle | .test .. | .next .. | .overflow .. => .ready
  | .slot .. => .slot
  | .locked .. => .locked
  | .pushed .. => .accessed
  | .unlocked .. => .unlocked

def SenderPc.phase : SenderPc → Phase
  | .wait => .ready
  | .slot => .slot
  | .locked => .locked
  | .popped => .accessed
  | .unlocked => .unlocked

def ReceiverPc.phase : ReceiverPc → Phase
  | .listening | .received _ => .ready
  | .slot _ => .slot
  | .locked _ => .locked
  | .pushed _ => .accessed
  | .unlocked _ => .unlocked

def ConsumerPc.phase : ConsumerPc → Phase
  | .wait | .deliver _ => .ready
  | .slot => .slot
  | .locked => .locked
  | .popped _ => .accessed
  | .unlocked _ => .unlocked

/-- Replacing an entry of a list by one with the same image. -/
theorem map_set_same {α β : Type _} {l : List α} {k : Nat} {a b : α} {f : α → β} (h : l[k]? = some a)
    (hf : f b = f a) : (l.set k b).map f = l.map f := by
  apply List.ext_getElem?; intro i
  rw [List.getElem?_map, List.getElem?_set, List.getElem?_map]
  split
  · rename_i e; subst e
    obtain ⟨hk, rfl⟩ := List.getElem?_eq_some_iff.mp h
    simp [hk, hf]
  · rfl

namespace Endpoint

/-- `senderWindow`, as a bounded buffer. -/
def window (s : Endpoint) : State LDPPacket where
  items := s.senderWindow
  empty := s.senderWindowEmptySlotCount
  full := s.senderWindowFullSlotCount
  mutex := s.senderWindowMutex
  producers := s.callers.map SendPc.phase
  consumers := s.senders.map SenderPc.phase
  put := s.pushed.map Prod.snd
  got := s.sent.map Sendto.packet

/-- `receivedMessageQueue`, as a bounded buffer. -/
def queue (s : Endpoint) : State (List UInt8) where
  items := s.receivedMessageQueue
  empty := s.receivedMessageQueueEmptySlotCount
  full := s.receivedMessageQueueFullSlotCount
  mutex := s.receivedMessageQueueMutex
  producers := [s.receiver.phase]
  consumers := [s.consumer.phase]
  put := s.queued
  got := s.dequeued

variable {host : ByteOrder} {s s' : Endpoint}

/-- A call of `send` shows in neither buffer. -/
theorem call_window {k : Nat} {message : List UInt8} {pc : SendPc} (hk : s.callers[k]? = some pc)
    (h : s.call k message pc = some s') : s'.window = s.window := by
  obtain ⟨rfl, rfl⟩ := call_eq h
  simp only [window, map_set_same hk (show SendPc.phase (.test message 0) = SendPc.phase .idle from rfl)]

/-- A step of `send` is a step of a producer, or does not show. -/
theorem send_window {k : Nat} {memory : LDPPacket} {pc : SendPc} (hk : s.callers[k]? = some pc)
    (h : s.send k memory pc = some s') :
    s'.window = s.window ∨ ∃ packet, produce s.window k packet pc.phase = some s'.window := by
  cases pc with
  | idle | overflow message i => simp [send] at h
  | test message i =>
    simp only [send] at h
    split at h
    · simp only [Option.bind_eq_bind, Option.bind_eq_some_iff, Option.some.injEq] at h
      obtain ⟨n, hn, rfl⟩ := h
      exact .inr ⟨memory, by simp [produce, window, SendPc.phase, hn, List.map_set]⟩
    · cases h
      exact .inl (by simp only [window]; rw [map_set_same (b := .idle) (f := SendPc.phase) hk rfl])
  | slot message i =>
    simp only [send, Option.bind_eq_bind, Option.bind_eq_some_iff, Option.some.injEq] at h
    obtain ⟨m, hm, rfl⟩ := h
    exact .inr ⟨memory, by simp [produce, window, SendPc.phase, hm, List.map_set]⟩
  | locked message i =>
    simp only [send, Option.bind_eq_bind, Option.bind_eq_some_iff, Option.some.injEq] at h
    obtain ⟨packet, -, rfl⟩ := h
    exact .inr ⟨packet, by simp [produce, window, SendPc.phase, List.map_set]⟩
  | pushed message i =>
    cases h
    exact .inr ⟨memory, by simp [produce, window, SendPc.phase, List.map_set]⟩
  | unlocked message i =>
    cases h
    exact .inr ⟨memory, by simp [produce, window, SendPc.phase, List.map_set]⟩
  | next message i =>
    cases h
    exact .inl (by simp only [window]; rw [map_set_same hk (by split <;> rfl)])

/-- A step of `ldpPacketSender` is a step of a consumer. -/
theorem ldpPacketSender_window {k : Nat} {stack : Vector UInt8 LDP_PACKET_SIZE} {pc : SenderPc}
    (h : s.ldpPacketSender host k stack pc = some s') : consume s.window k pc.phase = some s'.window := by
  cases pc with
  | wait =>
    simp only [ldpPacketSender, Option.bind_eq_bind, Option.bind_eq_some_iff, Option.some.injEq] at h
    obtain ⟨n, hn, rfl⟩ := h
    simp [consume, window, SenderPc.phase, hn, List.map_set]
  | slot =>
    simp only [ldpPacketSender, Option.bind_eq_bind, Option.bind_eq_some_iff, Option.some.injEq] at h
    obtain ⟨m, hm, rfl⟩ := h
    simp [consume, window, SenderPc.phase, hm, List.map_set]
  | locked =>
    simp only [ldpPacketSender] at h
    split at h
    · cases h
    · rename_i packet items he
      simp only [udpSend, Option.bind_eq_bind, Option.bind_eq_some_iff, Option.some.injEq] at h
      obtain ⟨_, ⟨e, -, rfl⟩, rfl⟩ := h
      simp [consume, window, SenderPc.phase, he, List.map_set]
  | popped =>
    cases h
    simp [consume, window, SenderPc.phase, List.map_set]
  | unlocked =>
    cases h
    simp [consume, window, SenderPc.phase, List.map_set]

/-- A step of the receiver with a packet is a step of the producer. -/
theorem ldpPacketReceiver_queue {pc : ReceiverPc} (hpc : s.receiver = pc)
    (h : s.ldpPacketReceiver pc = some s') :
    ∃ message, produce s.queue 0 message pc.phase = some s'.queue := by
  cases pc with
  | listening => simp [ldpPacketReceiver] at h
  | received packet =>
    simp only [ldpPacketReceiver, Option.bind_eq_bind, Option.bind_eq_some_iff, Option.some.injEq] at h
    obtain ⟨n, hn, rfl⟩ := h
    exact ⟨[], by simp [produce, queue, ReceiverPc.phase, hn]⟩
  | slot packet =>
    simp only [ldpPacketReceiver, Option.bind_eq_bind, Option.bind_eq_some_iff, Option.some.injEq] at h
    obtain ⟨m, hm, rfl⟩ := h
    exact ⟨[], by simp [produce, queue, ReceiverPc.phase, hm]⟩
  | locked packet =>
    cases h
    exact ⟨packet.payload.toList, by simp [produce, queue, ReceiverPc.phase]⟩
  | pushed packet =>
    cases h
    exact ⟨[], by simp [produce, queue, ReceiverPc.phase]⟩
  | unlocked packet =>
    cases h
    exact ⟨[], by simp [produce, queue, ReceiverPc.phase]⟩

/-- A step of the consumer is a step of the buffer's consumer, or the call of
`onMessage`, which does not show. -/
theorem messageConsumer_queue {pc : ConsumerPc} (hpc : s.consumer = pc)
    (h : s.messageConsumer pc = some s') :
    s'.queue = s.queue ∨ consume s.queue 0 pc.phase = some s'.queue := by
  cases pc with
  | wait =>
    simp only [messageConsumer, Option.bind_eq_bind, Option.bind_eq_some_iff, Option.some.injEq] at h
    obtain ⟨n, hn, rfl⟩ := h
    exact .inr (by simp [consume, queue, ConsumerPc.phase, hn])
  | slot =>
    simp only [messageConsumer, Option.bind_eq_bind, Option.bind_eq_some_iff, Option.some.injEq] at h
    obtain ⟨m, hm, rfl⟩ := h
    exact .inr (by simp [consume, queue, ConsumerPc.phase, hm])
  | locked =>
    simp only [messageConsumer] at h
    split at h <;> cases h
    rename_i message items he
    exact .inr (by simp [consume, queue, ConsumerPc.phase, he])
  | popped message =>
    cases h
    exact .inr (by simp [consume, queue, ConsumerPc.phase])
  | unlocked message =>
    cases h
    exact .inr (by simp [consume, queue, ConsumerPc.phase])
  | deliver message =>
    cases h
    exact .inl (by simp [queue, hpc, ConsumerPc.phase])

/-! ## Steps and runs -/

/-- A step of an endpoint is a step of the window, or does not show there. -/
theorem window_step {e : Event} (h : s.step host e = some s') :
    s'.window = s.window ∨ ∃ ev, BoundedBuffer.step s.window ev = some s'.window := by
  cases e with
  | call k message =>
    obtain ⟨pc, hk, h⟩ := Option.bind_eq_some_iff.mp h
    exact .inl (call_window hk h)
  | send k memory =>
    obtain ⟨pc, hk, h⟩ := Option.bind_eq_some_iff.mp h
    refine (send_window hk h).imp_right fun ⟨packet, hp⟩ => ⟨.produce k packet, ?_⟩
    simp only [BoundedBuffer.step]
    rw [show s.window.producers[k]? = some pc.phase by simp [window, hk]]
    exact hp
  | sender k stack =>
    obtain ⟨pc, hk, h⟩ := Option.bind_eq_some_iff.mp h
    refine .inr ⟨.consume k, ?_⟩
    simp only [BoundedBuffer.step]
    rw [show s.window.consumers[k]? = some pc.phase by simp [window, hk]]
    exact ldpPacketSender_window h
  | arrive source datagram buf =>
    obtain ⟨-, rfl⟩ := arrive_eq.mp h
    exact .inl rfl
  | receiver =>
    obtain ⟨_, _, _, _, _, _, rfl⟩ := ldpPacketReceiver_eq h
    exact .inl rfl
  | consumer =>
    obtain ⟨_, _, _, _, _, _, _, rfl⟩ := messageConsumer_eq h
    exact .inl rfl

/-- A step of an endpoint is a step of the queue, or does not show there. -/
theorem queue_step {e : Event} (h : s.step host e = some s') :
    s'.queue = s.queue ∨ ∃ ev, BoundedBuffer.step s.queue ev = some s'.queue := by
  cases e with
  | call k message =>
    obtain ⟨pc, -, h⟩ := Option.bind_eq_some_iff.mp h
    obtain ⟨-, rfl⟩ := call_eq h
    exact .inl rfl
  | send k memory =>
    obtain ⟨pc, -, h⟩ := Option.bind_eq_some_iff.mp h
    obtain ⟨_, _, _, _, _, _, rfl⟩ := send_eq h
    exact .inl rfl
  | sender k stack =>
    obtain ⟨pc, -, h⟩ := Option.bind_eq_some_iff.mp h
    obtain ⟨_, _, _, _, _, _, rfl, -⟩ := ldpPacketSender_eq h
    exact .inl rfl
  | arrive source datagram buf =>
    obtain ⟨⟨hr, -⟩, rfl⟩ := arrive_eq.mp h
    refine .inl ?_
    have hphase : ReceiverPc.phase (if (arrival host datagram buf).isCorrupted then .listening
        else .received (arrival host datagram buf)) = s.receiver.phase := by rw [hr]; split <;> rfl
    simp only [queue, hphase]
  | receiver =>
    obtain ⟨message, hm⟩ := ldpPacketReceiver_queue rfl h
    exact .inr ⟨.produce 0 message, hm⟩
  | consumer => exact (messageConsumer_queue rfl h).imp_right fun hc => ⟨.consume 0, hc⟩

/-- The window of an endpoint as `Chatter` sets it up: empty, with two threads of
`ldpPacketSender`. -/
theorem chatter_window (isClient : Bool) (memory resolved : Sockaddr) (callers : Nat) :
    (chatter isClient memory resolved callers).window =
      ⟨[], WINDOW_CONTAINER_MAX_SIZE, 0, none, .replicate callers .ready, .replicate 2 .ready, [], []⟩ := by
  cases isClient <;>
    simp [window, chatter, listen, createAndBindSocket, computeChateeAddrInfo, construct,
      initializeThreadMhreadEtcMtc, raw, SendPc.phase, SenderPc.phase]

theorem chatter_queue (isClient : Bool) (memory resolved : Sockaddr) (callers : Nat) :
    (chatter isClient memory resolved callers).queue =
      ⟨[], MAX_REC_MESSAGE_Q_SIZE, 0, none, .replicate 1 .ready, .replicate 1 .ready, [], []⟩ := by
  cases isClient <;> rfl

variable {isClient : Bool} {memory resolved : Sockaddr} {callers : Nat} {evs : List Event}

/-- In a run of an endpoint, the window runs as a bounded buffer. -/
theorem window_run (h : run (step host) s evs = some s') :
    ∃ evs', run BoundedBuffer.step s.window evs' = some s'.window :=
  run_map window (fun hs => window_step hs) h

theorem queue_run (h : run (step host) s evs = some s') :
    ∃ evs', run BoundedBuffer.step s.queue evs' = some s'.queue :=
  run_map queue (fun hs => queue_step hs) h

/-- The invariant of the window, in every reachable state. -/
theorem window_inv (h : run (step host) (chatter isClient memory resolved callers) evs = some s) :
    Inv WINDOW_CONTAINER_MAX_SIZE s.window := by
  obtain ⟨evs', h'⟩ := window_run h
  rw [chatter_window] at h'
  exact (Inv.init _ _ _).run h'

/-- The invariant of the queue, in every reachable state. -/
theorem queue_inv (h : run (step host) (chatter isClient memory resolved callers) evs = some s) :
    Inv MAX_REC_MESSAGE_Q_SIZE s.queue := by
  obtain ⟨evs', h'⟩ := queue_run h
  rw [chatter_queue] at h'
  exact (Inv.init _ _ _).run h'

end Endpoint
end Ldp
