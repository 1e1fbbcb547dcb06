import Ldp.Proof.Callers
import Ldp.Proof.Queues

/-!
# The window is safe

Whatever the interleaving of any number of threads that call `send` with the two
threads of `ldpPacketSender`, the window is a bounded queue without loss: it has
at most `WINDOW_CONTAINER_MAX_SIZE` packets, is not empty when its front is taken,
is worked on by one thread at a time, its semaphores account for every slot, and
its packets leave in the order in which they came (`senderWindow_safe`).
-/

namespace Ldp.Endpoint

open Framework Framework.BoundedBuffer

/-- The packets handed to `sendto` that thread `k` had pushed. -/
def sentOf (s : Endpoint) (k : Nat) : List LDPPacket :=
  ((s.pushed.zip s.sent).filter (·.1.1 = k)).map (·.2.packet)

/-- What the window of an endpoint keeps to. -/
structure SenderWindowSafe (s : Endpoint) : Prop where
  bounded : s.senderWindow.length ≤ WINDOW_CONTAINER_MAX_SIZE
  /-- The front of the window is there when a thread of `ldpPacketSender` takes it. -/
  front : ∀ k : Nat, s.senders[k]? = some .locked → s.senderWindow ≠ []
  /-- At most one thread is in the critical section. -/
  exclusive : ∀ p q ph ph', phaseOf s.window p = some ph → phaseOf s.window q = some ph' →
    ph.inside = true → ph'.inside = true → p = q
  /-- The full slots: those posted, those taken by a sender that has not popped, and
  those of callers that have pushed and not posted. -/
  full : s.senderWindowFullSlotCount + s.senders.countP (·.phase.before) +
    s.callers.countP (·.phase.after) = s.senderWindow.length
  /-- All slots: those of the semaphores, and those held by threads. -/
  slots : s.senderWindowEmptySlotCount + s.senderWindowFullSlotCount +
    s.callers.countP (·.phase.busy) + s.senders.countP (·.phase.busy) = WINDOW_CONTAINER_MAX_SIZE
  /-- The packets leave in the order in which they were pushed. -/
  order : s.sent.map Sendto.packet ++ s.senderWindow = s.pushed.map Prod.snd
  /-- Each caller pushes the packets of its messages in order, and they leave in order. -/
  callers : ∀ (k : Nat) (pc : SendPc), s.callers[k]? = some pc →
    Progress pc (s.calledBy k) (s.pushedBy k) ∧ s.sentOf k <+: s.pushedBy k

variable {host : ByteOrder} {s : Endpoint} {isClient : Bool} {memory resolved : Sockaddr}
  {callers : Nat} {evs : List Event}

theorem map_fst_zip_initial {α β : Type _} (l : List α) (l' : List β) : (l.zip l').map Prod.fst <+: l := by
  induction l generalizing l' with
  | nil => exact List.nil_prefix
  | cons a l ih =>
    cases l' with
    | nil => exact List.nil_prefix
    | cons b l' => exact List.cons_prefix_cons.mpr ⟨rfl, ih l'⟩

/-- What has been sent of a caller's packets is a prefix of what it has pushed. -/
theorem sentOf_initial {rest : List LDPPacket} (h : s.sent.map Sendto.packet ++ rest = s.pushed.map Prod.snd)
    (k : Nat) : s.sentOf k <+: s.pushedBy k := by
  have hlen : s.sent.length ≤ s.pushed.length := by
    have := congrArg List.length h
    simp only [List.length_append, List.length_map] at this
    omega
  -- each packet sent is the one pushed at its place
  have hzip : ∀ x ∈ s.pushed.zip s.sent, x.2.packet = x.1.2 := by
    intro x hx
    obtain ⟨i, hi, rfl⟩ := List.getElem_of_mem hx
    simp only [List.length_zip] at hi
    have hget := congrArg (·[i]?) h
    simp only [List.getElem?_append_left (show i < (s.sent.map Sendto.packet).length by simp; omega),
      List.getElem?_map, List.getElem?_eq_getElem (show i < s.sent.length by omega),
      List.getElem?_eq_getElem (show i < s.pushed.length by omega), Option.map_some,
      Option.some.injEq] at hget
    simpa using hget
  have hsent : s.sentOf k = (((s.pushed.zip s.sent).map Prod.fst).filter (·.1 = k)).map Prod.snd := by
    rw [List.filter_map, List.map_map]
    exact List.map_congr_left fun x hx => hzip x (List.mem_of_mem_filter hx)
  rw [hsent, pushedBy]
  exact ((map_fst_zip_initial _ _).filter _).map _

/-- The window is safe in every reachable state. -/
theorem senderWindow_safe (h : run (step host) (chatter isClient memory resolved callers) evs = some s) :
    s.SenderWindowSafe := by
  have hi := window_inv h
  have hu := hi.used
  have hs := hi.slots
  simp only [window, List.countP_map] at hu hs
  exact {
    bounded := hi.length_le
    front := fun k hk => hi.items_ne_nil (k := k) (by simp [window, hk, SenderPc.phase])
    exclusive := fun p q ph ph' hp hq => hi.exclusive hp hq
    full := hu
    slots := hs
    order := hi.order
    callers := fun k pc hk => ⟨(callers_progress h k pc hk).2, sentOf_initial hi.order k⟩ }

/-- Two threads call `send`, both push, and a packet of the first is sent. -/
def twoCallers : List Event :=
  [.call 0 [104, 105], .call 1 [121, 111], .send 0 blankPacket, .send 1 blankPacket, .send 0 blankPacket,
    .send 0 blankPacket, .send 0 blankPacket, .send 1 blankPacket, .send 0 blankPacket,
    .send 1 blankPacket, .send 1 blankPacket, .sender 1 blankBuffer, .sender 1 blankBuffer,
    .sender 1 blankBuffer]

theorem senderWindow_safe_twoCallers :
    ∃ s, run (step .little) (chatter true peerAddress peerAddress 2) twoCallers = some s ∧
      (s.senderWindow.length = 1 ∧ s.sent.length = 1) ∧ s.SenderWindowSafe :=
  ⟨_, rfl, by decide, senderWindow_safe
    (show run (step .little) (chatter true peerAddress peerAddress 2) twoCallers = _ from rfl)⟩

end Ldp.Endpoint
