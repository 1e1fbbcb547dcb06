import Ldp.Framework.Counting
import Ldp.Framework.Rest
import Ldp.Proof.Callers

/-!
# The work that is left in an endpoint

Each thread has a number of steps to go from where it is, and each packet on its way
through a queue has those of the thread that takes it out. Together they are the work that
is left in an endpoint (`Endpoint.work`): a step of one of its threads takes one unit of it
away (`own_work`), and only a call of `send` and an arrival bring some (`call_work`,
`arrive_work`). What is still to be handed to `sendto` is counted apart (`unsent`).
-/

namespace Ldp

open Framework Framework.BoundedBuffer

/-- The packets that the loop of `send` pushes from index `i` on. -/
def packetsFrom (message : List UInt8) (i : Nat) : Nat :=
  if i < message.length + 1 then (message.length - i) / 8 + 1 else 0

theorem packetsFrom_of_lt {message : List UInt8} {i : Nat} (h : i < message.length + 1) :
    packetsFrom message i = packetsFrom message (i + 8) + 1 := by
  unfold packetsFrom
  rw [if_pos h]
  split <;> omega

theorem packetsFrom_of_le {message : List UInt8} {i : Nat} (h : ¬ i < message.length + 1) :
    packetsFrom message i = 0 := if_neg h

theorem packetsFrom_zero (message : List UInt8) : packetsFrom message 0 = packetCount message :=
  if_pos (Nat.zero_lt_succ _)

namespace SendPc

/-- The packets of the call that the senders cannot take yet. -/
def pending : SendPc → Nat
  | .idle | .overflow .. => 0
  | .test message i => packetsFrom message i
  | .slot message i | .locked message i | .pushed message i | .unlocked message i =>
    packetsFrom message (i + 8) + 1
  | .next message i => packetsFrom message (i + 8)

/-- The steps of `send` that are left in the call, six for each packet. -/
def work : SendPc → Nat
  | .idle | .overflow .. => 0
  | .test message i => 6 * packetsFrom message i + 1
  | .slot message i => 6 * packetsFrom message (i + 8) + 6
  | .locked message i => 6 * packetsFrom message (i + 8) + 5
  | .pushed message i => 6 * packetsFrom message (i + 8) + 4
  | .unlocked message i => 6 * packetsFrom message (i + 8) + 3
  | .next message i => 6 * packetsFrom message (i + 8) + 2

/-- The next step is an addition to the loop index that overflows. -/
def overflows : SendPc → Bool
  | .next _ i => INT_MAX < i + 8
  | _ => false

end SendPc

/-- The packet that a sender has taken from the semaphore and not sent. -/
def SenderPc.unsent : SenderPc → Nat
  | .slot | .locked => 1
  | .wait | .popped | .unlocked => 0

/-- The steps until a thread is at its wait again. -/
def SenderPc.work : SenderPc → Nat
  | .wait => 0
  | .slot => 4
  | .locked => 3
  | .popped => 2
  | .unlocked => 1

/-- The steps that are left for the packet of the receiver, six of them of the consumer. -/
def ReceiverPc.work : ReceiverPc → Nat
  | .listening => 0
  | .received _ => 11
  | .slot _ => 10
  | .locked _ => 9
  | .pushed _ => 8
  | .unlocked _ => 7

def ConsumerPc.work : ConsumerPc → Nat
  | .wait => 0
  | .slot => 5
  | .locked => 4
  | .popped _ => 3
  | .unlocked _ => 2
  | .deliver _ => 1

namespace Endpoint

/-- The packets of the calls so far that are not handed to `sendto` yet. -/
def unsent (s : Endpoint) : Nat :=
  s.senderWindowFullSlotCount + (s.callers.map SendPc.pending).sum + (s.senders.map SenderPc.unsent).sum

/-- The steps that are left for the callers and the senders, five of them for each packet
that a sender is still to take. -/
def senderWork (s : Endpoint) : Nat :=
  (s.callers.map SendPc.work).sum + (s.senders.map SenderPc.work).sum +
    5 * (s.senderWindowFullSlotCount + (s.callers.map SendPc.pending).sum)

/-- The steps that are left for the receiver and the consumer. -/
def receiverWork (s : Endpoint) : Nat :=
  s.receiver.work + 6 * s.receivedMessageQueueFullSlotCount + s.consumer.work

def work (s : Endpoint) : Nat := s.senderWork + s.receiverWork

/-- A step of one of the threads, other than the beginning of a call and an arrival. -/
def Event.isOwn : Event → Bool
  | .call .. | .arrive .. => false
  | _ => true

variable {host : ByteOrder} {s s' : Endpoint} {k : Nat}

/-- A step of `send` takes one step away from the call, and hands its packets on; or it
takes all that is left away, where the index overflows. -/
theorem send_moves {memory : LDPPacket} {pc : SendPc} (h : s.send k memory pc = some s') :
    ∃ pc', s'.callers = s.callers.set k pc' ∧ s'.senders = s.senders ∧ pc'.work + 1 ≤ pc.work ∧
      pc'.pending + s'.senderWindowFullSlotCount ≤ pc.pending + s.senderWindowFullSlotCount ∧
      (pc.overflows = false → pc'.work + 1 = pc.work ∧
        pc'.pending + s'.senderWindowFullSlotCount = pc.pending + s.senderWindowFullSlotCount) := by
  cases pc with
  | idle | overflow message i => simp only [send, reduceCtorEq] at h
  | test message i =>
    simp only [send] at h
    split at h
    · rename_i hlt
      obtain ⟨n, -, h⟩ := Option.bind_eq_some_iff.mp h
      obtain rfl := Option.some.inj h
      refine ⟨.slot message i, rfl, rfl, ?_, ?_, fun _ => ⟨?_, ?_⟩⟩ <;>
        simp only [SendPc.work, SendPc.pending, packetsFrom_of_lt hlt] <;> omega
    · rename_i hge
      obtain rfl := Option.some.inj h
      refine ⟨.idle, rfl, rfl, ?_, ?_, fun _ => ⟨?_, ?_⟩⟩ <;>
        simp only [SendPc.work, SendPc.pending, packetsFrom_of_le hge] <;> omega
  | slot message i =>
    obtain ⟨m, -, h⟩ := Option.bind_eq_some_iff.mp h
    obtain rfl := Option.some.inj h
    exact ⟨.locked message i, rfl, rfl, Nat.le_refl _, Nat.le_refl _, fun _ => ⟨rfl, rfl⟩⟩
  | locked message i =>
    obtain ⟨packet, -, h⟩ := Option.bind_eq_some_iff.mp h
    obtain rfl := Option.some.inj h
    exact ⟨.pushed message i, rfl, rfl, Nat.le_refl _, Nat.le_refl _, fun _ => ⟨rfl, rfl⟩⟩
  | pushed message i =>
    obtain rfl := Option.some.inj h
    exact ⟨.unlocked message i, rfl, rfl, Nat.le_refl _, Nat.le_refl _, fun _ => ⟨rfl, rfl⟩⟩
  | unlocked message i =>
    obtain rfl := Option.some.inj h
    refine ⟨.next message i, rfl, rfl, ?_, ?_, fun _ => ⟨?_, ?_⟩⟩ <;>
      simp only [SendPc.work, SendPc.pending, semPost] <;> omega
  | next message i =>
    obtain rfl := Option.some.inj h
    by_cases hmax : i + 8 ≤ INT_MAX
    · refine ⟨.test message (i + 8), by simp only [hmax, ↓reduceIte], rfl, ?_, ?_, fun _ => ⟨?_, ?_⟩⟩ <;>
        simp only [SendPc.work, SendPc.pending] <;> omega
    · refine ⟨.overflow message i, by simp only [hmax, ↓reduceIte], rfl, ?_, ?_, fun ho => ?_⟩
      · simp only [SendPc.work]
        omega
      · simp only [SendPc.pending]
        omega
      · exact absurd (Nat.le_of_not_lt (of_decide_eq_false ho)) hmax

theorem send_work {memory : LDPPacket} {pc : SendPc} (hk : s.callers[k]? = some pc)
    (h : s.send k memory pc = some s') :
    s'.senderWork + 1 ≤ s.senderWork ∧ s'.unsent ≤ s.unsent ∧
      (pc.overflows = false → s'.senderWork + 1 = s.senderWork) := by
  obtain ⟨pc', hcallers, hsenders, hwork, hpending, heq⟩ := send_moves h
  have hw := sum_map_set_add pc' SendPc.work hk
  have hp := sum_map_set_add pc' SendPc.pending hk
  simp only [senderWork, unsent, hcallers, hsenders]
  refine ⟨by omega, by omega, fun ho => ?_⟩
  obtain ⟨hwork', hpending'⟩ := heq ho
  omega

/-- A step of `ldpPacketSender` takes one step away from the thread, and what it sends from
what is unsent. -/
theorem ldpPacketSender_moves {stack : Vector UInt8 LDP_PACKET_SIZE} {pc : SenderPc}
    (h : s.ldpPacketSender host k stack pc = some s') :
    ∃ pc', s'.senders = s.senders.set k pc' ∧ s'.callers = s.callers ∧
      pc'.work + 5 * s'.senderWindowFullSlotCount + 1 = pc.work + 5 * s.senderWindowFullSlotCount ∧
      pc'.unsent + s'.senderWindowFullSlotCount + s'.sent.length =
        pc.unsent + s.senderWindowFullSlotCount + s.sent.length := by
  cases pc with
  | wait =>
    simp only [ldpPacketSender, Option.bind_eq_bind, Option.bind_eq_some_iff, Option.some.injEq,
      semWait_eq_some] at h
    obtain ⟨n, hn, rfl⟩ := h
    refine ⟨.slot, rfl, rfl, ?_, ?_⟩ <;>
      simp only [SenderPc.work, SenderPc.unsent] <;> omega
  | slot =>
    obtain ⟨m, -, h⟩ := Option.bind_eq_some_iff.mp h
    obtain rfl := Option.some.inj h
    refine ⟨.locked, rfl, rfl, ?_, ?_⟩ <;>
      simp only [SenderPc.work, SenderPc.unsent]
    omega
  | locked =>
    simp only [ldpPacketSender] at h
    split at h
    · simp only [reduceCtorEq] at h
    · obtain ⟨sendto, -, h⟩ := Option.bind_eq_some_iff.mp h
      obtain rfl := Option.some.inj h
      refine ⟨.popped, rfl, rfl, ?_, ?_⟩ <;>
        simp only [SenderPc.work, SenderPc.unsent, List.length_append, List.length_singleton] <;> omega
  | popped =>
    obtain rfl := Option.some.inj h
    refine ⟨.unlocked, rfl, rfl, ?_, ?_⟩ <;>
      simp only [SenderPc.work, SenderPc.unsent]
    omega
  | unlocked =>
    obtain rfl := Option.some.inj h
    refine ⟨.wait, rfl, rfl, ?_, ?_⟩ <;>
      simp only [SenderPc.work, SenderPc.unsent]
    omega

theorem ldpPacketSender_work {stack : Vector UInt8 LDP_PACKET_SIZE} {pc : SenderPc}
    (hk : s.senders[k]? = some pc) (h : s.ldpPacketSender host k stack pc = some s') :
    s'.senderWork + 1 = s.senderWork ∧ s'.unsent + s'.sent.length = s.unsent + s.sent.length := by
  obtain ⟨pc', hsenders, hcallers, hmove⟩ := ldpPacketSender_moves h
  have hw := sum_map_set_add pc' SenderPc.work hk
  have hu := sum_map_set_add pc' SenderPc.unsent hk
  simp only [senderWork, unsent, hcallers, hsenders]
  omega

theorem ldpPacketReceiver_work {pc : ReceiverPc} (hpc : s.receiver = pc)
    (h : s.ldpPacketReceiver pc = some s') : s'.receiverWork + 1 = s.receiverWork := by
  cases pc with
  | listening => simp only [ldpPacketReceiver, reduceCtorEq] at h
  | received packet | slot packet =>
    obtain ⟨_, -, h⟩ := Option.bind_eq_some_iff.mp h
    obtain rfl := Option.some.inj h
    simp only [receiverWork, hpc, ReceiverPc.work]
    omega
  | locked packet | pushed packet =>
    obtain rfl := Option.some.inj h
    simp only [receiverWork, hpc, ReceiverPc.work]
    omega
  | unlocked packet =>
    obtain rfl := Option.some.inj h
    simp only [receiverWork, hpc, ReceiverPc.work, semPost]
    omega

theorem messageConsumer_work {pc : ConsumerPc} (hpc : s.consumer = pc)
    (h : s.messageConsumer pc = some s') : s'.receiverWork + 1 = s.receiverWork := by
  cases pc with
  | wait =>
    simp only [messageConsumer, Option.bind_eq_bind, Option.bind_eq_some_iff, Option.some.injEq,
      semWait_eq_some] at h
    obtain ⟨n, hn, rfl⟩ := h
    simp only [receiverWork, hpc, ConsumerPc.work, hn]
    omega
  | slot =>
    obtain ⟨_, -, h⟩ := Option.bind_eq_some_iff.mp h
    obtain rfl := Option.some.inj h
    simp only [receiverWork, hpc, ConsumerPc.work]
  | locked =>
    simp only [messageConsumer] at h
    split at h
    · simp only [reduceCtorEq] at h
    · obtain rfl := Option.some.inj h
      simp only [receiverWork, hpc, ConsumerPc.work]
  | popped message | unlocked message | deliver message =>
    obtain rfl := Option.some.inj h
    simp only [receiverWork, hpc, ConsumerPc.work]

/-! ## Any step -/

/-- A step of a thread takes one unit away, unless the index of a call overflows. -/
theorem own_work {e : Event} (he : e.isOwn = true) (h : s.step host e = some s') :
    s'.work + 1 ≤ s.work ∧ s'.unsent + s'.sent.length ≤ s.unsent + s.sent.length ∧
      ((∀ pc ∈ s.callers, pc.overflows = false) → s'.work + 1 = s.work) := by
  cases e with
  | call k message | arrive source datagram buf => exact absurd he Bool.false_ne_true
  | send k memory =>
    obtain ⟨pc, hk, h⟩ := Option.bind_eq_some_iff.mp h
    obtain ⟨hle, hu, heq⟩ := send_work hk h
    obtain ⟨_, _, _, _, _, _, hs'⟩ := send_eq h
    have hr : s'.receiverWork = s.receiverWork := by rw [hs']; rfl
    have hsent : s'.sent = s.sent := by rw [hs']
    refine ⟨by unfold work; omega, by rw [hsent]; omega, fun hc => ?_⟩
    have hone := heq (hc pc (List.mem_of_getElem? hk))
    unfold work
    omega
  | sender k stack =>
    obtain ⟨pc, hk, h⟩ := Option.bind_eq_some_iff.mp h
    obtain ⟨heq, hu⟩ := ldpPacketSender_work hk h
    obtain ⟨_, _, _, _, _, _, hs', -⟩ := ldpPacketSender_eq h
    have hr : s'.receiverWork = s.receiverWork := by rw [hs']; rfl
    unfold work
    omega
  | receiver =>
    have heq := ldpPacketReceiver_work rfl h
    obtain ⟨_, _, _, _, _, _, rfl⟩ := ldpPacketReceiver_eq h
    simp only [work, senderWork, unsent] at heq ⊢
    omega
  | consumer =>
    have heq := messageConsumer_work rfl h
    obtain ⟨_, _, _, _, _, _, _, rfl⟩ := messageConsumer_eq h
    simp only [work, senderWork, unsent] at heq ⊢
    omega

/-- What a call of `send` brings: eleven steps for each packet, and the one that returns. -/
theorem call_work {message : List UInt8} (h : s.step host (.call k message) = some s') :
    s'.work = s.work + (11 * packetCount message + 1) ∧ s'.unsent = s.unsent + packetCount message ∧
      s'.sent = s.sent := by
  obtain ⟨pc, hk, h⟩ := Option.bind_eq_some_iff.mp h
  obtain ⟨rfl, rfl⟩ := call_eq h
  have hw := sum_map_set_add (.test message 0) SendPc.work hk
  have hp := sum_map_set_add (.test message 0) SendPc.pending hk
  simp only [SendPc.work, SendPc.pending, packetsFrom_zero] at hw hp
  refine ⟨?_, ?_, rfl⟩ <;> simp only [work, senderWork, receiverWork, unsent] <;> omega

/-- What an arrival brings: eleven steps, if the packet is accepted. -/
theorem arrive_work {source : Sockaddr} {datagram : List UInt8} {buf : Vector UInt8 LDP_PACKET_SIZE}
    (h : s.step host (.arrive source datagram buf) = some s') :
    s'.work ≤ s.work + 11 ∧ s'.unsent = s.unsent ∧ s'.sent = s.sent := by
  obtain ⟨⟨hr, -⟩, rfl⟩ := arrive_eq.mp h
  refine ⟨?_, rfl, rfl⟩
  simp only [work, receiverWork, hr, senderWork]
  split <;> simp only [ReceiverPc.work] <;> omega

end Endpoint
end Ldp
