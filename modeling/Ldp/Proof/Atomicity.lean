import Ldp.Framework.Simulation
import Ldp.Proof.Atomic
import Ldp.Proof.Callers
import Ldp.Proof.Queues

/-!
# The semaphores and mutexes of an endpoint make its operations atomic

An endpoint implements the atomic one. Each access to a queue is an event of it, and what the
threads do around the accesses does not show (`send_atomic` and the like); where an access
happens there is room, or something to take, by the invariant of the bounded buffers.
Conversely, each event of the atomic endpoint is shown by a round of one thread
(`push_shows` and the like).
-/

namespace Ldp

open Framework Framework.BoundedBuffer

namespace Endpoint

variable {host : ByteOrder} {s s' : Endpoint} {k : Nat}

/-! ## A step shows an event, or nothing -/

theorem atomic_caller {pc : SendPc} (hk : s.callers[k]? = some pc) :
    s.atomic.callers[k]? = some pc.caller := by
  simp only [atomic, List.getElem?_map, hk, Option.map_some]

theorem window_producer {pc : SendPc} (hk : s.callers[k]? = some pc) :
    s.window.producers[k]? = some pc.phase := by
  simp only [window, List.getElem?_map, hk, Option.map_some]

theorem call_atomic {message : List UInt8} {pc : SendPc} (hk : s.callers[k]? = some pc)
    (h : s.call k message pc = some s') :
    run (Atomic.step host) s.atomic [.call k message] = some s'.atomic := by
  obtain ⟨rfl, rfl⟩ := call_eq h
  refine run_single ?_
  simp only [Atomic.step, atomic_caller hk, SendPc.caller, ↓reduceIte, Option.some.injEq]
  simp only [atomic, List.map_set, SendPc.caller]

/-- A caller goes on, and is seen where it was. -/
theorem atomic_eq_of_caller {pc : SendPc} (pc' : SendPc) (hk : s.callers[k]? = some pc)
    (hpc : pc'.caller = pc.caller) (empty full : Nat) (mutex : Option BoundedBuffer.Party) :
    atomic { s with
      senderWindowEmptySlotCount := empty
      senderWindowFullSlotCount := full
      senderWindowMutex := mutex
      callers := s.callers.set k pc' } = s.atomic := by
  simp only [atomic, map_set_same hk hpc]

theorem send_atomic {memory : LDPPacket} {pc : SendPc} (hw : Inv WINDOW_CONTAINER_MAX_SIZE s.window)
    (hr : pc.InRange) (hk : s.callers[k]? = some pc) (h : s.send k memory pc = some s') :
    run (Atomic.step host) s.atomic (s.shown (.send k memory)) = some s'.atomic := by
  have hcaller := atomic_caller hk
  cases pc with
  | idle | overflow message i => simp only [send, reduceCtorEq] at h
  | test message i =>
    simp only [send] at h
    split at h
    · rename_i hi
      obtain ⟨n, -, h⟩ := Option.bind_eq_some_iff.mp h
      obtain rfl := Option.some.inj h
      simp only [shown, hk, hi, ↓reduceIte, run_nil, Option.some.injEq]
      exact (atomic_eq_of_caller (.slot message i) hk rfl ..).symm
    · rename_i hi
      obtain rfl := Option.some.inj h
      simp only [shown, hk, hi, ↓reduceIte]
      refine run_single ?_
      simp only [Atomic.step, hcaller, SendPc.caller, hi, ↓reduceIte, Option.some.injEq]
      simp only [atomic, List.map_set, SendPc.caller]
  | slot message i =>
    obtain ⟨m, -, h⟩ := Option.bind_eq_some_iff.mp h
    obtain rfl := Option.some.inj h
    simp only [shown, hk, run_nil, Option.some.injEq]
    exact (atomic_eq_of_caller (.locked message i) hk rfl ..).symm
  | locked message i =>
    obtain ⟨packet, hp, h⟩ := Option.bind_eq_some_iff.mp h
    obtain rfl := Option.some.inj h
    have hlt : i < message.length + 1 := Nat.lt_succ_of_le hr
    have hroom : s.atomic.window.length < WINDOW_CONTAINER_MAX_SIZE := hw.length_lt (window_producer hk)
    simp only [shown, hk]
    refine run_single ?_
    simp only [Atomic.step, hcaller, SendPc.caller, hlt, hroom, and_self, ↓reduceIte, hp,
      Option.bind_eq_bind, Option.bind_some, Option.some.injEq]
    simp only [atomic, List.map_set, SendPc.caller]
  | pushed message i =>
    obtain rfl := Option.some.inj h
    simp only [shown, hk, run_nil, Option.some.injEq]
    exact (atomic_eq_of_caller (.unlocked message i) hk rfl ..).symm
  | unlocked message i =>
    obtain rfl := Option.some.inj h
    simp only [shown, hk, run_nil, Option.some.injEq]
    exact (atomic_eq_of_caller (.next message i) hk rfl ..).symm
  | next message i =>
    obtain rfl := Option.some.inj h
    simp only [shown, hk, run_nil, Option.some.injEq]
    refine (atomic_eq_of_caller _ hk ?_ ..).symm
    by_cases hmax : i + 8 ≤ INT_MAX <;> simp only [SendPc.caller, Caller.next, hmax, ↓reduceIte]

theorem ldpPacketSender_atomic {stack : Vector UInt8 LDP_PACKET_SIZE} {pc : SenderPc}
    (hk : s.senders[k]? = some pc) (h : s.ldpPacketSender host k stack pc = some s') :
    run (Atomic.step host) s.atomic (s.shown (.sender k stack)) = some s'.atomic := by
  cases pc with
  | wait | slot =>
    obtain ⟨n, -, h⟩ := Option.bind_eq_some_iff.mp h
    obtain rfl := Option.some.inj h
    simp only [shown, hk, Option.some.injEq, reduceCtorEq, ↓reduceIte, run_nil, atomic]
  | locked =>
    simp only [ldpPacketSender] at h
    split at h
    · simp only [reduceCtorEq] at h
    · rename_i packet window hw
      simp only [udpSend, LDPPacket.encode_eq, Option.bind_eq_bind, Option.bind_some,
        Option.some.injEq] at h
      obtain rfl := h
      simp only [shown, hk, ↓reduceIte]
      refine run_single ?_
      simp only [Atomic.step, atomic, hw]
  | popped | unlocked =>
    obtain rfl := Option.some.inj h
    simp only [shown, hk, Option.some.injEq, reduceCtorEq, ↓reduceIte, run_nil, atomic]

theorem arrive_atomic {source : Sockaddr} {datagram : List UInt8} {buf : Vector UInt8 LDP_PACKET_SIZE}
    (h : s.arrive host source datagram buf s.receiver = some s') :
    run (Atomic.step host) s.atomic [.arrive source datagram buf] = some s'.atomic := by
  obtain ⟨⟨hr, -⟩, rfl⟩ := arrive_eq.mp h
  refine run_single ?_
  simp only [Atomic.step, atomic, hr, ReceiverPc.packet, ↓reduceIte, Option.some.injEq]
  by_cases hc : (arrival host datagram buf).isCorrupted = true <;> simp only [hc, ↓reduceIte, Bool.false_eq_true]

theorem ldpPacketReceiver_atomic {pc : ReceiverPc} (hq : Inv MAX_REC_MESSAGE_Q_SIZE s.queue)
    (hpc : s.receiver = pc) (h : s.ldpPacketReceiver pc = some s') :
    run (Atomic.step host) s.atomic (s.shown .receiver) = some s'.atomic := by
  cases pc with
  | listening => simp only [ldpPacketReceiver, reduceCtorEq] at h
  | received packet | slot packet =>
    obtain ⟨n, -, h⟩ := Option.bind_eq_some_iff.mp h
    obtain rfl := Option.some.inj h
    simp only [shown, hpc, run_nil, atomic, ReceiverPc.packet]
  | locked packet =>
    obtain rfl := Option.some.inj h
    have hroom : s.receivedMessageQueue.length < MAX_REC_MESSAGE_Q_SIZE :=
      hq.length_lt (k := 0) (by simp only [queue, hpc, ReceiverPc.phase, List.getElem?_cons_zero])
    simp only [shown, hpc]
    refine run_single ?_
    simp only [Atomic.step, atomic, hpc, ReceiverPc.packet, hroom, ↓reduceIte]
  | pushed packet | unlocked packet =>
    obtain rfl := Option.some.inj h
    simp only [shown, hpc, run_nil, atomic, ReceiverPc.packet]

theorem messageConsumer_atomic {pc : ConsumerPc} (hpc : s.consumer = pc)
    (h : s.messageConsumer pc = some s') :
    run (Atomic.step host) s.atomic (s.shown .consumer) = some s'.atomic := by
  cases pc with
  | wait | slot =>
    obtain ⟨n, -, h⟩ := Option.bind_eq_some_iff.mp h
    obtain rfl := Option.some.inj h
    simp only [shown, hpc, run_nil, atomic, ConsumerPc.message]
  | locked =>
    simp only [messageConsumer] at h
    split at h
    · simp only [reduceCtorEq] at h
    · rename_i message queue hq
      obtain rfl := Option.some.inj h
      simp only [shown, hpc]
      refine run_single ?_
      simp only [Atomic.step, atomic, hpc, ConsumerPc.message, hq]
  | popped message | unlocked message =>
    obtain rfl := Option.some.inj h
    simp only [shown, hpc, run_nil, atomic, ConsumerPc.message]
  | deliver message =>
    obtain rfl := Option.some.inj h
    simp only [shown, hpc]
    refine run_single ?_
    simp only [Atomic.step, atomic, hpc, ConsumerPc.message, Option.map_some]

/-- The two queues keep the invariant of bounded buffers, and the callers are in their loops. -/
structure Sound (s : Endpoint) : Prop where
  window : Inv WINDOW_CONTAINER_MAX_SIZE s.window
  queue : Inv MAX_REC_MESSAGE_Q_SIZE s.queue
  callers : s.CallersProgress

theorem Sound.step {e : Event} (hi : s.Sound) (h : s.step host e = some s') : s'.Sound where
  window := by
    rcases window_step h with hw | ⟨ev, hw⟩
    · exact hw ▸ hi.window
    · exact hi.window.step hw
  queue := by
    rcases queue_step h with hq | ⟨ev, hq⟩
    · exact hq ▸ hi.queue
    · exact hi.queue.step hq
  callers := step_progress hi.callers h

/-- A step leads to where the events that it shows lead. -/
theorem step_atomic {e : Event} (hi : s.Sound) (h : s.step host e = some s') :
    run (Atomic.step host) s.atomic (s.shown e) = some s'.atomic := by
  cases e with
  | call k message =>
    obtain ⟨pc, hk, h⟩ := Option.bind_eq_some_iff.mp h
    exact call_atomic hk h
  | send k memory =>
    obtain ⟨pc, hk, h⟩ := Option.bind_eq_some_iff.mp h
    exact send_atomic hi.window (hi.callers k pc hk).1 hk h
  | sender k stack =>
    obtain ⟨pc, hk, h⟩ := Option.bind_eq_some_iff.mp h
    exact ldpPacketSender_atomic hk h
  | arrive source datagram buf => exact arrive_atomic h
  | receiver => exact ldpPacketReceiver_atomic hi.queue rfl h
  | consumer => exact messageConsumer_atomic rfl h

/-! ## An event is shown by a round -/

/-- A round of `send` pushes a packet, if there is a free slot. -/
theorem push_shows {memory packet : LDPPacket} {message : List UInt8} {i n : Nat}
    (hk : s.callers[k]? = some (.test message i)) (hi : i < message.length + 1)
    (hempty : s.senderWindowEmptySlotCount = n + 1) (hm : s.senderWindowMutex = none)
    (hp : LDPPacket.ofMessage memory ((cStr message).drop i) (message.length - i + 1) = some packet) :
    Shows (step host) shown s [.push k memory] { s with
      senderWindow := s.senderWindow ++ [packet]
      senderWindowEmptySlotCount := n
      senderWindowFullSlotCount := s.senderWindowFullSlotCount + 1
      callers := s.callers.set k
        (if i + 8 ≤ INT_MAX then .test message (i + 8) else .overflow message i)
      pushed := s.pushed ++ [(k, packet)] } := by
  have hlen : k < s.callers.length := (List.getElem?_eq_some_iff.mp hk).1
  refine ⟨.replicate 6 (.send k memory), ?_, ?_⟩ <;>
    simp only [List.replicate_succ, List.replicate_zero, run, trace, shown, step, send, hk, hi, hempty, hm, hp,
      hlen, lock, semWait, semPost, ↓reduceIte, Option.bind_eq_bind, Option.bind_some, Option.elim_some,
      List.getElem?_set_self, List.set_set, List.nil_append, List.append_nil]

/-- A round of `ldpPacketSender` sends the packet at the front. -/
theorem sendto_shows {packet : LDPPacket} {window : List LDPPacket} {n : Nat}
    (hk : s.senders[k]? = some .wait) (hw : s.senderWindow = packet :: window)
    (hfull : s.senderWindowFullSlotCount = n + 1) (hm : s.senderWindowMutex = none) :
    Shows (step host) shown s [.sendto] { s with
      senderWindow := window
      senderWindowEmptySlotCount := s.senderWindowEmptySlotCount + 1
      senderWindowFullSlotCount := n
      senders := s.senders.set k .wait
      sent := s.sent ++ [⟨packet, s.chateeSockaddr, packet.wire host⟩] } := by
  have hlen : k < s.senders.length := (List.getElem?_eq_some_iff.mp hk).1
  refine ⟨.replicate 5 (.sender k (.replicate _ 0)), ?_, ?_⟩ <;>
    simp only [List.replicate_succ, List.replicate_zero, run, trace, shown, step, ldpPacketSender, udpSend,
      LDPPacket.encode_eq, hk, hw, hfull, hm, hlen, lock, semWait, semPost, ↓reduceIte, Option.bind_eq_bind,
      Option.bind_some, Option.elim_some, Option.some.injEq, reduceCtorEq, List.getElem?_set_self,
      List.set_set, List.nil_append, List.append_nil]

/-- A round of `ldpPacketReceiver` queues the payload of the packet it holds. -/
theorem queue_shows {packet : LDPPacket} {n : Nat} (hr : s.receiver = .received packet)
    (hempty : s.receivedMessageQueueEmptySlotCount = n + 1) (hm : s.receivedMessageQueueMutex = none) :
    Shows (step host) shown s [.queue] { s with
      receivedMessageQueue := s.receivedMessageQueue ++ [packet.payload.toList]
      receivedMessageQueueEmptySlotCount := n
      receivedMessageQueueFullSlotCount := s.receivedMessageQueueFullSlotCount + 1
      receiver := .listening
      queued := s.queued ++ [packet.payload.toList] } := by
  refine ⟨.replicate 5 .receiver, ?_, ?_⟩ <;>
    simp only [List.replicate_succ, List.replicate_zero, run, trace, shown, step, ldpPacketReceiver, hr, hempty,
      hm, lock, semWait, semPost, ↓reduceIte, Option.bind_eq_bind, Option.bind_some, Option.elim_some,
      List.nil_append, List.append_nil]

/-- A round of `deliverData` takes the string at the front. -/
theorem dequeue_shows {message : List UInt8} {queue : List (List UInt8)} {n : Nat}
    (hc : s.consumer = .wait) (hq : s.receivedMessageQueue = message :: queue)
    (hfull : s.receivedMessageQueueFullSlotCount = n + 1) (hm : s.receivedMessageQueueMutex = none) :
    Shows (step host) shown s [.dequeue] { s with
      receivedMessageQueue := queue
      receivedMessageQueueEmptySlotCount := s.receivedMessageQueueEmptySlotCount + 1
      receivedMessageQueueFullSlotCount := n
      consumer := .deliver message
      dequeued := s.dequeued ++ [message] } := by
  refine ⟨.replicate 5 .consumer, ?_, ?_⟩ <;>
    simp only [List.replicate_succ, List.replicate_zero, run, trace, shown, step, messageConsumer, hc, hq, hfull,
      hm, lock, semWait, semPost, ↓reduceIte, Option.bind_eq_bind, Option.bind_some, Option.elim_some,
      List.nil_append, List.append_nil]

end Endpoint

namespace Atomic

variable {host : ByteOrder} {isClient : Bool} {a b : Atomic}

theorem endpoint_caller (isClient : Bool) {k : Nat} {c : Caller} (hk : a.callers[k]? = some c) :
    (a.endpoint isClient).callers[k]? = some c.pc := by
  simp only [endpoint, List.getElem?_map, hk, Option.map_some]

/-- An arrival is a step of the endpoint. -/
theorem arrive_endpoint {source : Sockaddr} {datagram : List UInt8} {buf : Vector UInt8 LDP_PACKET_SIZE}
    (h : step host a (.arrive source datagram buf) = some b) :
    (a.endpoint isClient).step host (.arrive source datagram buf) = some (b.endpoint isClient) := by
  simp only [step] at h
  split at h
  · rename_i hpacket
    obtain rfl := Option.some.inj h
    refine Endpoint.arrive_eq.mpr ⟨⟨?_, rfl⟩, ?_⟩
    · simp only [endpoint, hpacket, Option.elim_none]
    · by_cases hc : (Endpoint.arrival host datagram buf).isCorrupted = true <;>
        simp only [endpoint, hc, ↓reduceIte, Bool.false_eq_true, Option.elim_none, Option.elim_some]
  · simp only [reduceCtorEq] at h

/-- Every event of the atomic endpoint is shown by the endpoint that represents it. -/
theorem step_shows {act : Event} (hi : (a.endpoint isClient).Sound) (h : step host a act = some b) :
    Shows (Endpoint.step host) Endpoint.shown (a.endpoint isClient) [act] (b.endpoint isClient) := by
  cases act with
  | call k message =>
    simp only [step] at h
    split at h
    · rename_i hk
      obtain rfl := Option.some.inj h
      refine Shows.single (e := Endpoint.Event.call k message) ?_ rfl
      simp only [Endpoint.step, endpoint_caller isClient hk, Caller.pc, Option.bind_some, Endpoint.call]
      simp only [endpoint, List.map_set, Caller.pc]
    · simp only [reduceCtorEq] at h
  | push k memory =>
    simp only [step] at h
    split at h
    · rename_i message i hk
      split at h
      · rename_i hroom
        obtain ⟨packet, hp, h⟩ := Option.bind_eq_some_iff.mp h
        obtain rfl := Option.some.inj h
        have hempty : WINDOW_CONTAINER_MAX_SIZE - a.window.length =
            WINDOW_CONTAINER_MAX_SIZE - (a.window.length + 1) + 1 := by omega
        refine (Endpoint.push_shows (endpoint_caller isClient hk) hroom.1 hempty rfl hp).of_eq ?_
        have hpc : (if i + 8 ≤ INT_MAX then SendPc.test message (i + 8) else .overflow message i) =
            (Caller.next message i).pc := by
          unfold Caller.next
          split <;> rfl
        simp only [endpoint, List.map_set, List.length_append, List.length_singleton, hpc]
      · simp only [reduceCtorEq] at h
    · simp only [reduceCtorEq] at h
  | finish k =>
    simp only [step] at h
    split at h
    · rename_i message i hk
      split at h
      · simp only [reduceCtorEq] at h
      · rename_i hge
        obtain rfl := Option.some.inj h
        have hpc := endpoint_caller isClient hk
        refine Shows.single (e := Endpoint.Event.send k blankPacket) ?_ ?_
        · simp only [Endpoint.step, hpc, Caller.pc, Option.bind_some, Endpoint.send, hge, ↓reduceIte]
          simp only [endpoint, List.map_set, Caller.pc]
        · simp only [Endpoint.shown, hpc, Caller.pc, hge, ↓reduceIte]
    · simp only [reduceCtorEq] at h
  | sendto =>
    simp only [step] at h
    split at h
    · simp only [reduceCtorEq] at h
    · rename_i packet window hw
      obtain rfl := Option.some.inj h
      have hle : a.window.length ≤ WINDOW_CONTAINER_MAX_SIZE := hi.window.length_le
      rw [hw, List.length_cons] at hle
      refine (Endpoint.sendto_shows (k := 0) rfl hw (congrArg List.length hw) rfl).of_eq ?_
      have hempty : WINDOW_CONTAINER_MAX_SIZE - a.window.length + 1 =
          WINDOW_CONTAINER_MAX_SIZE - window.length := by rw [hw, List.length_cons]; omega
      simp only [endpoint, hempty, List.set_cons_zero]
  | arrive source datagram buf => exact Shows.single (arrive_endpoint h) rfl
  | queue =>
    simp only [step] at h
    split at h
    · simp only [reduceCtorEq] at h
    · rename_i packet hpacket
      split at h
      · rename_i hroom
        obtain rfl := Option.some.inj h
        have hempty : MAX_REC_MESSAGE_Q_SIZE - a.queue.length =
            MAX_REC_MESSAGE_Q_SIZE - (a.queue.length + 1) + 1 := by omega
        have hreceiver : (a.endpoint isClient).receiver = .received packet := by
          simp only [endpoint, hpacket, Option.elim_some]
        refine (Endpoint.queue_shows hreceiver hempty rfl).of_eq ?_
        simp only [endpoint, List.length_append, List.length_singleton, Option.elim_none]
      · simp only [reduceCtorEq] at h
  | dequeue =>
    simp only [step] at h
    split at h
    · rename_i message queue hmessage hq
      obtain rfl := Option.some.inj h
      have hle : a.queue.length ≤ MAX_REC_MESSAGE_Q_SIZE := hi.queue.length_le
      rw [hq, List.length_cons] at hle
      have hempty : MAX_REC_MESSAGE_Q_SIZE - a.queue.length + 1 =
          MAX_REC_MESSAGE_Q_SIZE - queue.length := by rw [hq, List.length_cons]; omega
      have hconsumer : (a.endpoint isClient).consumer = .wait := by
        simp only [endpoint, hmessage, Option.elim_none]
      refine (Endpoint.dequeue_shows hconsumer hq (congrArg List.length hq) rfl).of_eq ?_
      simp only [endpoint, hempty, Option.elim_some]
    · simp only [reduceCtorEq] at h
  | deliver =>
    obtain ⟨message, hmessage, rfl⟩ := Option.map_eq_some_iff.mp h
    have hconsumer : (a.endpoint isClient).consumer = .deliver message := by
      simp only [endpoint, hmessage, Option.elim_some]
    refine Shows.single (e := Endpoint.Event.consumer) ?_ ?_
    · simp only [Endpoint.step, hconsumer, Endpoint.messageConsumer]
      simp only [endpoint, Option.elim_none]
    · simp only [Endpoint.shown, hconsumer]

end Atomic

namespace Endpoint

/-- An endpoint implements the atomic one. -/
def implementation (host : ByteOrder) (isClient : Bool) :
    Implementation (Endpoint.step host) (Atomic.step host) where
  view := atomic
  shown := shown
  Inv := Sound
  inv_step := fun hi h => hi.step h
  sim := fun hi h => step_atomic hi h
  represent := Atomic.endpoint isClient
  view_represent := Atomic.atomic_endpoint isClient
  realize := fun hi h => Atomic.step_shows hi h

variable {isClient : Bool} {memory resolved : Sockaddr} {callers : Nat}

theorem chatter_sound : (chatter isClient memory resolved callers).Sound where
  window := by
    rw [chatter_window]
    exact .init _ _ _
  queue := by
    rw [chatter_queue]
    exact .init _ _ _
  callers := chatter_progress

/-- What `Chatter` sets up is seen as an atomic endpoint to which nothing has happened. -/
theorem chatter_atomic (isClient : Bool) (memory resolved : Sockaddr) (callers : Nat) :
    (chatter isClient memory resolved callers).atomic =
      .start (if isClient then resolved else memory) callers := by
  cases isClient <;>
    simp [atomic, Atomic.start, chatter, listen, createAndBindSocket, computeChateeAddrInfo, construct,
      initializeThreadMhreadEtcMtc, raw, SendPc.caller, ReceiverPc.packet, ConsumerPc.message]

theorem endpoint_chatter :
    (chatter isClient memory resolved callers).atomic.endpoint isClient =
      chatter isClient memory resolved callers := by
  rw [chatter_atomic]
  cases isClient <;>
    simp [Atomic.endpoint, Atomic.start, Caller.pc, chatter, listen, createAndBindSocket, computeChateeAddrInfo,
      construct, initializeThreadMhreadEtcMtc, raw]

/-- The endpoint that `Chatter` sets up shows exactly the runs of the atomic endpoint, with any
number of callers: each sequence of calls, pushes, datagrams sent and received, and strings queued and
delivered that its threads can show, under any schedule, is one that the atomic endpoint permits, and
each that it permits, they can show; with the same queues and histories at the end. -/
theorem atomic_iff {host : ByteOrder} {acts : List Atomic.Event} {a : Atomic} :
    (∃ s, Shows (step host) shown (chatter isClient memory resolved callers) acts s ∧ s.atomic = a) ↔
      run (Atomic.step host) (.start (if isClient then resolved else memory) callers) acts = some a := by
  rw [← chatter_atomic isClient memory]
  exact (implementation host isClient).shows_iff chatter_sound endpoint_chatter

end Endpoint

end Ldp
