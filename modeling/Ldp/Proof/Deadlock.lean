import Ldp.Framework.Progress
import Ldp.Proof.Window

/-!
# The queues do not deadlock

While the window is not empty or a caller of `send` is in the middle of a message, one of
the callers and senders can take a step, and while the message queue is not empty or the
receiver has a packet, the receiver or the consumer can (`no_deadlock`): a step of an
endpoint can happen if that of its bounded buffer can (`send_enabled`,
`ldpPacketSender_enabled`, `ldpPacketReceiver_enabled`, `messageConsumer_enabled`), and
bounded buffers progress.
-/

namespace Ldp

open Framework Framework.BoundedBuffer

/-- The thread is in the middle of a message. Past an overflow of the index nothing is
defined. -/
def SendPc.partWay : SendPc → Bool
  | .idle | .overflow .. => false
  | _ => true

theorem SendPc.partWay_of_busy {pc : SendPc} (h : pc.phase.busy = true) : pc.partWay = true := by
  cases pc <;> first | rfl | exact absurd h Bool.false_ne_true

namespace Endpoint

variable {host : ByteOrder} {s : Endpoint} {k : Nat}

/-- Some thread on the sender side can take a step, whatever the memory holds. -/
def SenderSideCanStep (host : ByteOrder) (s : Endpoint) : Prop :=
  (∃ k, ∀ memory, (s.step host (.send k memory)).isSome = true) ∨
    ∃ k, ∀ stack, (s.step host (.sender k stack)).isSome = true

/-- The receiver or the consumer can take a step. -/
def ReceiverSideCanStep (host : ByteOrder) (s : Endpoint) : Prop :=
  (s.step host .receiver).isSome = true ∨ (s.step host .consumer).isSome = true

/-! ## What the buffers enable -/

/-- A caller in the middle of a message can go on if the producer of the window can. -/
theorem send_enabled {pc : SendPc} (hr : pc.InRange) (hp : pc.partWay = true)
    (h : Enabled s.window (.producer k) pc.phase) (memory : LDPPacket) :
    (s.send k memory pc).isSome = true := by
  have h := h memory
  cases pc with
  | idle | overflow message i => exact absurd hp Bool.false_ne_true
  | test message i =>
    simp only [send]
    split
    · cases hn : semWait s.senderWindowEmptySlotCount <;>
        simp_all [produce, window, SendPc.phase]
    · rfl
  | slot message i =>
    cases hm : lock s.senderWindowMutex (.producer k) <;>
      simp_all [send, produce, window, SendPc.phase]
  | locked message i =>
    obtain ⟨packet, hp⟩ := exists_carries memory hr
    simp [send, hp]
  | pushed message i | unlocked message i | next message i => rfl

theorem ldpPacketSender_enabled {pc : SenderPc} (h : Enabled s.window (.consumer k) pc.phase)
    (stack : Vector UInt8 LDP_PACKET_SIZE) : (s.ldpPacketSender host k stack pc).isSome = true := by
  cases pc with
  | wait =>
    cases hn : semWait s.senderWindowFullSlotCount <;>
      simp_all [Enabled, ldpPacketSender, consume, window, SenderPc.phase]
  | slot =>
    cases hm : lock s.senderWindowMutex (.consumer k) <;>
      simp_all [Enabled, ldpPacketSender, consume, window, SenderPc.phase]
  | locked =>
    cases hw : s.senderWindow with
    | nil => simp [Enabled, consume, window, SenderPc.phase, hw] at h
    | cons packet rest => simp [ldpPacketSender, hw, udpSend, LDPPacket.encode_eq]
  | popped | unlocked => rfl

theorem ldpPacketReceiver_enabled {pc : ReceiverPc} (hpc : pc ≠ .listening)
    (h : Enabled s.queue (.producer 0) pc.phase) : (s.ldpPacketReceiver pc).isSome = true := by
  have h := h []
  cases pc with
  | listening => exact absurd rfl hpc
  | received packet =>
    cases hn : semWait s.receivedMessageQueueEmptySlotCount <;>
      simp_all [ldpPacketReceiver, produce, queue, ReceiverPc.phase]
  | slot packet =>
    cases hm : lock s.receivedMessageQueueMutex (.producer 0) <;>
      simp_all [ldpPacketReceiver, produce, queue, ReceiverPc.phase]
  | locked packet | pushed packet | unlocked packet => rfl

theorem messageConsumer_enabled {pc : ConsumerPc} (h : Enabled s.queue (.consumer 0) pc.phase) :
    (s.messageConsumer pc).isSome = true := by
  cases pc with
  | wait =>
    cases hn : semWait s.receivedMessageQueueFullSlotCount <;>
      simp_all [Enabled, messageConsumer, consume, queue, ConsumerPc.phase]
  | slot =>
    cases hm : lock s.receivedMessageQueueMutex (.consumer 0) <;>
      simp_all [Enabled, messageConsumer, consume, queue, ConsumerPc.phase]
  | locked =>
    cases hq : s.receivedMessageQueue with
    | nil => simp [Enabled, consume, queue, ConsumerPc.phase, hq] at h
    | cons message rest => simp [messageConsumer, hq]
  | popped message | unlocked message | deliver message => rfl

/-! ## Reachable states -/

variable {isClient : Bool} {memory resolved : Sockaddr} {callers : Nat} {evs : List Event}

theorem window_threads (h : run (step host) (chatter isClient memory resolved callers) evs = some s) :
    Threads callers 2 s.window := by
  obtain ⟨evs', h'⟩ := window_run h
  rw [chatter_window] at h'
  exact (Threads.init _ _ _).run h'

theorem queue_threads (h : run (step host) (chatter isClient memory resolved callers) evs = some s) :
    Threads 1 1 s.queue := by
  obtain ⟨evs', h'⟩ := queue_run h
  rw [chatter_queue] at h'
  exact (Threads.init _ _ _).run h'

theorem exists_caller {ph : Phase} (hp : phaseOf s.window (.producer k) = some ph) :
    ∃ pc, s.callers[k]? = some pc ∧ pc.phase = ph := by
  simpa only [phaseOf, window, List.getElem?_map, Option.map_eq_some_iff] using hp

theorem exists_sender {ph : Phase} (hp : phaseOf s.window (.consumer k) = some ph) :
    ∃ pc, s.senders[k]? = some pc ∧ pc.phase = ph := by
  simpa only [phaseOf, window, List.getElem?_map, Option.map_eq_some_iff] using hp

theorem senderSide_of_caller (hi : s.CallersProgress) {pc : SendPc} (hk : s.callers[k]? = some pc)
    (hp : pc.partWay = true) (h : Enabled s.window (.producer k) pc.phase) :
    s.SenderSideCanStep host := by
  refine .inl ⟨k, fun memory => ?_⟩
  rw [step, hk]
  exact send_enabled (hi k pc hk).1 hp h memory

theorem senderSide_of_sender {pc : SenderPc} (hk : s.senders[k]? = some pc)
    (h : Enabled s.window (.consumer k) pc.phase) : s.SenderSideCanStep host := by
  refine .inr ⟨k, fun stack => ?_⟩
  rw [step, hk]
  exact ldpPacketSender_enabled h stack

/-- The sender side can take a step while there is something for it to do. -/
theorem senderSide_canStep (h : run (step host) (chatter isClient memory resolved callers) evs = some s)
    (hwork : s.senderWindow ≠ [] ∨
      ∃ (k : Nat) (pc : SendPc), s.callers[k]? = some pc ∧ pc.partWay = true) :
    s.SenderSideCanStep host := by
  have ht := window_threads h
  rcases (window_inv h).enabled_or_ready ht with ⟨q, ph, hq, hb, hen⟩ | ⟨hready, hfull, hempty⟩
  · cases q with
    | producer k =>
      obtain ⟨pc, hk, rfl⟩ := exists_caller hq
      exact senderSide_of_caller (callers_progress h) hk (SendPc.partWay_of_busy hb) hen
    | consumer k =>
      obtain ⟨pc, hk, rfl⟩ := exists_sender hq
      exact senderSide_of_sender hk hen
  · by_cases hw : s.window.items = []
    · -- the whole capacity is free for a caller
      obtain ⟨k, pc, hk, hp⟩ := hwork.resolve_left fun hne => hne hw
      have hph : pc.phase = .ready := hready (.producer k) _ (by simp [phaseOf, window, hk])
      refine senderSide_of_caller (callers_progress h) hk hp (hph ▸ Inv.enabled_producer ?_)
      rw [hw, List.length_nil] at hempty
      have hcap : 0 < WINDOW_CONTAINER_MAX_SIZE := by decide
      omega
    · -- there is a packet for the first sender
      obtain ⟨ph, hph⟩ : ∃ ph, phaseOf s.window (.consumer 0) = some ph :=
        ⟨_, List.getElem?_eq_getElem (ht.consumers ▸ Nat.two_pos)⟩
      obtain ⟨pc, hk, rfl⟩ := exists_sender hph
      refine senderSide_of_sender hk (hready _ _ hph ▸ Inv.enabled_consumer ?_)
      exact hfull ▸ List.length_pos_iff.mpr hw

/-- The receiver's side can take a step while there is something for it to do. -/
theorem receiverSide_canStep
    (h : run (step host) (chatter isClient memory resolved callers) evs = some s)
    (hwork : s.receivedMessageQueue ≠ [] ∨ s.receiver ≠ .listening) : s.ReceiverSideCanStep host := by
  have ht := queue_threads h
  have hreceiver : ∀ {ph}, phaseOf s.queue (.producer 0) = some ph → ph = s.receiver.phase :=
    fun he => (Option.some.inj he).symm
  have hconsumer : ∀ {ph}, phaseOf s.queue (.consumer 0) = some ph → ph = s.consumer.phase :=
    fun he => (Option.some.inj he).symm
  rcases (queue_inv h).enabled_or_ready ht with ⟨q, ph, hq, hb, hen⟩ | ⟨hready, hfull, hempty⟩
  · cases q with
    | producer k =>
      obtain rfl : k = 0 := Nat.lt_one_iff.mp (List.getElem?_eq_some_iff.mp hq).1
      obtain rfl := hreceiver hq
      refine .inl (ldpPacketReceiver_enabled (fun hr => ?_) hen)
      rw [hr] at hb
      exact absurd hb Bool.false_ne_true
    | consumer k =>
      obtain rfl : k = 0 := Nat.lt_one_iff.mp (List.getElem?_eq_some_iff.mp hq).1
      obtain rfl := hconsumer hq
      exact .inr (messageConsumer_enabled hen)
  · by_cases hw : s.queue.items = []
    · have hr := hwork.resolve_left fun hne => hne hw
      have hph : s.receiver.phase = .ready := hready (.producer 0) _ rfl
      refine .inl (ldpPacketReceiver_enabled hr (hph ▸ Inv.enabled_producer ?_))
      rw [hw, List.length_nil] at hempty
      have hcap : 0 < MAX_REC_MESSAGE_Q_SIZE := by decide
      omega
    · have hph : s.consumer.phase = .ready := hready (.consumer 0) _ rfl
      refine .inr (messageConsumer_enabled (hph ▸ Inv.enabled_consumer ?_))
      exact hfull ▸ List.length_pos_iff.mpr hw

/-- No thread that waits for a slot of a queue holds the mutex of the queue. -/
structure WaitsWithoutMutex (s : Endpoint) : Prop where
  caller : ∀ (k : Nat) (message : List UInt8) (i : Nat), s.callers[k]? = some (.test message i) →
    s.senderWindowMutex ≠ some (.producer k)
  sender : ∀ k : Nat, s.senders[k]? = some .wait → s.senderWindowMutex ≠ some (.consumer k)
  receiver : ∀ packet : LDPPacket, s.receiver = .received packet →
    s.receivedMessageQueueMutex ≠ some (.producer 0)
  consumer : s.consumer = .wait → s.receivedMessageQueueMutex ≠ some (.consumer 0)

theorem waitsWithoutMutex (h : run (step host) (chatter isClient memory resolved callers) evs = some s) :
    s.WaitsWithoutMutex where
  caller k message i hk := (window_inv h).mutex_ne_of_ready (p := .producer k)
    (by simp [phaseOf, window, hk, SendPc.phase])
  sender k hk := (window_inv h).mutex_ne_of_ready (p := .consumer k)
    (by simp [phaseOf, window, hk, SenderPc.phase])
  receiver packet hr := (queue_inv h).mutex_ne_of_ready (p := .producer 0)
    (by simp [phaseOf, queue, hr, ReceiverPc.phase])
  consumer hc := (queue_inv h).mutex_ne_of_ready (p := .consumer 0)
    (by simp [phaseOf, queue, hc, ConsumerPc.phase])

/-- In every reachable state, with any number of threads that call `send`: as long as the
window is not empty or one of them is in the middle of a message, one of them or of the
threads of `ldpPacketSender` can take a step; as long as the message queue is not empty
or the receiver has a packet, it or the consumer can; and no thread waits for a slot
while it holds the mutex of the queue. -/
theorem no_deadlock (h : run (step host) (chatter isClient memory resolved callers) evs = some s) :
    ((s.senderWindow ≠ [] ∨ ∃ (k : Nat) (pc : SendPc), s.callers[k]? = some pc ∧ pc.partWay = true) →
      s.SenderSideCanStep host) ∧
    (s.receivedMessageQueue ≠ [] ∨ s.receiver ≠ .listening → s.ReceiverSideCanStep host) ∧
    s.WaitsWithoutMutex :=
  ⟨senderSide_canStep h, receiverSide_canStep h, waitsWithoutMutex h⟩

/-- A packet in the window, and a caller in the middle of its message. -/
theorem no_deadlock_twoCallers :
    ∃ s, run (step .little) (chatter true peerAddress peerAddress 2) twoCallers = some s ∧
      s.SenderSideCanStep .little ∧ s.WaitsWithoutMutex := by
  have h : run (step .little) (chatter true peerAddress peerAddress 2) twoCallers = _ := rfl
  obtain ⟨hsender, -, hwaits⟩ := no_deadlock h
  exact ⟨_, h, hsender (.inl (by decide)), hwaits⟩

end Endpoint
end Ldp
