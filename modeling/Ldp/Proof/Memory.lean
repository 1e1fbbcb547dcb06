import Ldp.Proof.Callers

/-!
# Runs that differ in what the memory holds

What the memory holds in which packets are constructed changes the bytes of packets, and
nothing else: two runs of the same events, up to that memory, have the same `shape`, that
is, they are the same up to the packets that are in the window or have been pushed or
sent (`run_shape`).
-/

namespace Ldp

open Framework

/-- Whether the constructor reads past the memory of the message does not depend on the
memory of the packet. -/
theorem LDPPacket.ofMessage_isSome (memory memory' : LDPPacket) (message : List UInt8) (n : Nat) :
    (ofMessage memory message n).isSome = (ofMessage memory' message n).isSome := by
  have hcopy : ∀ k payload payload', (copyPayload message n k payload).isSome =
      (copyPayload message n k payload').isSome := fun k => by
    induction k with
    | zero => exact fun _ _ => rfl
    | succ k ih =>
      intro payload payload'
      rw [copyPayload, copyPayload]
      split
      · cases message[7 - k]? with
        | none => rfl
        | some c => exact ih _ _
      · rfl
  have h := hcopy 8 memory.payload memory'.payload
  simp only [ofMessage, Option.bind_eq_bind]
  cases hm : copyPayload message n 8 memory.payload <;>
    cases hm' : copyPayload message n 8 memory'.payload <;> simp_all

namespace Endpoint

/-- An event without what the memory of a packet holds. -/
def Event.withoutMemory : Event → Event
  | .send k _ => .send k blankPacket
  | e => e

/-- An endpoint without the bytes of packets. -/
def shape (s : Endpoint) : Endpoint :=
  { s with
    senderWindow := s.senderWindow.map fun _ => blankPacket
    pushed := s.pushed.map fun x => (x.1, blankPacket)
    sent := s.sent.map fun x => ⟨blankPacket, x.dest, blankBuffer⟩ }

variable {host : ByteOrder} {s s' t u : Endpoint}

@[simp] theorem shape_shape (s : Endpoint) : shape (shape s) = shape s := by
  simp only [shape, List.map_map]
  rfl

/-- Only in the critical section is a packet constructed. -/
theorem send_memory (k : Nat) (memory memory' : LDPPacket) {pc : SendPc}
    (hpc : ∀ message i, pc ≠ .locked message i) : s.send k memory' pc = s.send k memory pc := by
  cases pc with
  | locked message i => exact absurd rfl (hpc message i)
  | idle | overflow message i | test message i | slot message i | pushed message i | unlocked message i
  | next message i => rfl

theorem send_shape (k : Nat) (memory memory' : LDPPacket) (pc : SendPc) :
    ((shape s).send k memory' pc).map shape = (s.send k memory pc).map shape := by
  by_cases hpc : ∃ message i, pc = .locked message i
  · obtain ⟨message, i, rfl⟩ := hpc
    have h := LDPPacket.ofMessage_isSome memory memory' ((cStr message).drop i) (message.length - i + 1)
    simp only [send]
    cases hm : LDPPacket.ofMessage memory ((cStr message).drop i) (message.length - i + 1) <;>
      cases hm' : LDPPacket.ofMessage memory' ((cStr message).drop i) (message.length - i + 1) <;>
      simp_all [shape]
  · have hpc : ∀ message i, pc ≠ .locked message i := fun message i h => hpc ⟨message, i, h⟩
    rw [(send_framed memory' hpc).map_comm (fun _ _ => rfl) shape_shape, send_memory k memory memory' hpc]

theorem ldpPacketSender_shape (k : Nat) (stack : Vector UInt8 LDP_PACKET_SIZE) (pc : SenderPc) :
    ((shape s).ldpPacketSender host k stack pc).map shape =
      (s.ldpPacketSender host k stack pc).map shape := by
  by_cases hpc : pc = .locked
  · subst hpc
    simp only [ldpPacketSender]
    rw [show (shape s).senderWindow = s.senderWindow.map fun _ => blankPacket from rfl]
    cases s.senderWindow with
    | nil => rfl
    | cons packet window =>
      simp only [List.map_cons, udpSend, LDPPacket.encode_eq, Option.bind_eq_bind, Option.bind_some]
      simp [shape]
  · exact (ldpPacketSender_framed stack hpc).map_comm (fun _ _ => rfl) shape_shape s

/-- A step leads to the same shape, whatever the packets are and the memory holds. -/
theorem step_shape (e : Event) :
    ((shape s).step host e.withoutMemory).map shape = (s.step host e).map shape := by
  cases e with
  | call k message =>
    simp only [step, Event.withoutMemory]
    rw [show (shape s).callers = s.callers from rfl]
    cases s.callers[k]? with
    | none => rfl
    | some pc => exact (call_framed k message pc).map_comm (fun _ _ => rfl) shape_shape s
  | send k memory =>
    simp only [step, Event.withoutMemory]
    rw [show (shape s).callers = s.callers from rfl]
    cases s.callers[k]? with
    | none => rfl
    | some pc => exact send_shape k memory blankPacket pc
  | sender k stack =>
    simp only [step, Event.withoutMemory]
    rw [show (shape s).senders = s.senders from rfl]
    cases s.senders[k]? with
    | none => rfl
    | some pc => exact ldpPacketSender_shape k stack pc
  | arrive source datagram buf =>
    exact (arrive_framed source datagram buf).map_comm (fun _ _ => rfl) shape_shape s
  | receiver => exact ldpPacketReceiver_framed.map_comm (fun _ _ => rfl) shape_shape s
  | consumer => exact messageConsumer_framed.map_comm (fun _ _ => rfl) shape_shape s

/-- Of two endpoints of the same shape, one can do what the other does, in other memory. -/
theorem step_of_shape_eq {e e' : Event} (hs : shape s = shape u)
    (he : e.withoutMemory = e'.withoutMemory) (h : s.step host e = some t) :
    ∃ t', u.step host e' = some t' ∧ shape t = shape t' := by
  have hmap : (u.step host e').map shape = some (shape t) := by
    rw [← step_shape, ← he, ← hs, step_shape, h]
    rfl
  obtain ⟨t', ht', hshape⟩ := Option.map_eq_some_iff.mp hmap
  exact ⟨t', ht', hshape.symm⟩

/-- Two runs of the same events, up to the memory of packets, lead to the same shape. -/
theorem run_shape {evs evs' : List Event} (he : evs.map Event.withoutMemory = evs'.map Event.withoutMemory)
    (h : run (step host) s evs = some t) (h' : run (step host) s evs' = some u) : shape t = shape u := by
  obtain ⟨t', ht', hshape⟩ := run_congr (fun hs he h => step_of_shape_eq hs he h) rfl he h
  obtain rfl := Option.some.inj (h'.symm.trans ht')
  exact hshape

end Endpoint
end Ldp
