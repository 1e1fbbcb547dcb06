import Ldp.Framework.Parts
import Ldp.Proof.Delivery

/-!
# The two directions of a chat

An endpoint has a sending half (the window and its threads) and a receiving half (the queue and
its threads), which share the address of the peer only. So a chat in which each side has the
address of the other has two parts, one for each direction: the sending half of one side, the
network to the other side, and the receiving half there. A run is a run of each direction by
itself, however the two are interleaved (`duplex`).
-/

namespace Ldp

open Framework

/-! ## The halves of an endpoint -/

namespace Endpoint

/-- The event is one of the sending half. -/
def Event.sends : Event → Bool
  | .call .. | .send .. | .sender .. => true
  | .arrive .. | .receiver | .consumer => false

/-- The sending half of `s` and the receiving half of `u`. -/
def merge (s u : Endpoint) : Endpoint :=
  { u with
    senderWindow := s.senderWindow
    senderWindowFullSlotCount := s.senderWindowFullSlotCount
    senderWindowEmptySlotCount := s.senderWindowEmptySlotCount
    senderWindowMutex := s.senderWindowMutex
    callers := s.callers
    senders := s.senders
    called := s.called
    pushed := s.pushed
    sent := s.sent }

variable {host : ByteOrder} {s s' u : Endpoint}

theorem send_merge (k : Nat) (memory : LDPPacket) (pc : SendPc) :
    (merge s u).send k memory pc = (s.send k memory pc).map (merge · u) := by
  by_cases hpc : ∃ message i, pc = .locked message i
  · obtain ⟨message, i, rfl⟩ := hpc
    simp only [send]
    cases LDPPacket.ofMessage memory ((cStr message).drop i) (message.length - i + 1) <;> rfl
  · exact (send_framed memory fun message i h => hpc ⟨message, i, h⟩).comm (m := (merge · u)) (fun _ _ => rfl) s

/-- The sending half reads the address. -/
theorem ldpPacketSender_merge (ha : s.chateeSockaddr = u.chateeSockaddr) (k : Nat)
    (stack : Vector UInt8 LDP_PACKET_SIZE) (pc : SenderPc) :
    (merge s u).ldpPacketSender host k stack pc = (s.ldpPacketSender host k stack pc).map (merge · u) := by
  by_cases hpc : pc = .locked
  · subst hpc
    simp only [ldpPacketSender]
    rw [show (merge s u).senderWindow = s.senderWindow from rfl]
    cases s.senderWindow with
    | nil => rfl
    | cons packet window =>
      simp only [udpSend, LDPPacket.encode_eq, Option.bind_eq_bind, Option.bind_some, Option.map_some, merge,
        ha]
  · exact (ldpPacketSender_framed stack hpc).comm (m := (merge · u)) (fun _ _ => rfl) s

/-- A step of the sending half. -/
theorem step_merge_sends {e : Event} (he : e.sends = true) (ha : s.chateeSockaddr = u.chateeSockaddr) :
    (merge s u).step host e = (s.step host e).map (merge · u) := by
  cases e with
  | call k message =>
    simp only [step]
    rw [show (merge s u).callers = s.callers from rfl]
    cases s.callers[k]? with
    | none => rfl
    | some pc => exact (call_framed k message pc).comm (m := (merge · u)) (fun _ _ => rfl) s
  | send k memory =>
    simp only [step]
    rw [show (merge s u).callers = s.callers from rfl]
    cases s.callers[k]? with
    | none => rfl
    | some pc => exact send_merge k memory pc
  | sender k stack =>
    simp only [step]
    rw [show (merge s u).senders = s.senders from rfl]
    cases s.senders[k]? with
    | none => rfl
    | some pc => exact ldpPacketSender_merge ha k stack pc
  | arrive source datagram buf | receiver | consumer => exact absurd he Bool.false_ne_true

/-- A step of the receiving half. -/
theorem step_merge_receives {e : Event} (he : e.sends = false) :
    (merge s u).step host e = (u.step host e).map (merge s) := by
  cases e with
  | call k message | send k memory | sender k stack => exact absurd he.symm Bool.false_ne_true
  | arrive source datagram buf => exact (arrive_framed source datagram buf).comm (fun _ _ => rfl) u
  | receiver => exact ldpPacketReceiver_framed.comm (fun _ _ => rfl) u
  | consumer => exact messageConsumer_framed.comm (fun _ _ => rfl) u

end Endpoint

/-! ## The directions of a chat -/

namespace Chat

variable {net : Network} {c c' t : Chat} {evs : List Event}

/-- The side to which the direction leads in which an event happens. -/
def toward : Event → Side
  | .act side e => if e.sends then side.other else side
  | .deliver side .. | .drop side .. | .duplicate side .. => side

/-- The chat whose direction to each side is that of a chat of its own. -/
def join (f : Side → Chat) : Chat where
  endpoint side := .merge ((f side.other).endpoint side) ((f side).endpoint side)
  inFlight side := (f side).inFlight side

theorem join_endpoint (f : Side → Chat) (side : Side) :
    (join f).endpoint side = .merge ((f side.other).endpoint side) ((f side).endpoint side) := rfl

theorem join_inFlight (f : Side → Chat) (side : Side) : (join f).inFlight side = (f side).inFlight side := rfl

/-- Each side has the address of the other. -/
def Addressed (net : Network) (c : Chat) : Prop :=
  ∀ side, (c.endpoint side).chateeSockaddr = net.address side.other

theorem Addressed.step {e : Event} (ha : Addressed net c) (h : step net c e = some c') :
    Addressed net c' := by
  intro side
  rcases step_cases h side with he | ⟨ev, -, hne, he⟩ | ⟨d, buf, -, he⟩
  · rw [he]
    exact ha side
  · rw [(Endpoint.step_received he hne).2]
    exact ha side
  · obtain ⟨-, he⟩ := Endpoint.arrive_eq.mp he
    rw [he]

theorem step_act {e : Endpoint.Event} (he : e.isArrive = false) (side : Side) :
    step net c (.act side e) = ((c.endpoint side).step net.host e).map fun s => {
      endpoint := Function.update c.endpoint side s
      inFlight := Function.update c.inFlight side.other
        (c.inFlight side.other ++ outgoing (net.address side.other) (c.endpoint side) s) } := by
  cases e with
  | arrive source datagram buf => exact absurd he.symm Bool.false_ne_true
  | call k message | send k memory | sender k stack | receiver | consumer => rw [Option.map_eq_bind]; rfl

/-- A receiving half sends nothing. -/
theorem outgoing_merge (address : Sockaddr) (s u u' : Endpoint) :
    outgoing address (.merge s u) (.merge s u') = [] := by
  simp only [outgoing, Endpoint.merge, List.drop_length, List.filter_nil, List.map_nil]

/-- An event happens in the direction in which it leads, and the other direction is as it was. -/
theorem step_join {f : Side → Chat} {e : Event} (hf : ∀ side, Addressed net (f side)) :
    step net (join f) e = (step net (f (toward e)) e).map fun t => join (Function.update f (toward e) t) := by
  cases e with
  | act side e =>
    by_cases he : e.sends = true
    · have harrive : e.isArrive = false := by
        cases e <;> first | rfl | exact absurd he Bool.false_ne_true
      have haddr := (hf side.other side).trans (hf side side).symm
      have hstep := @Endpoint.step_merge_sends net.host _ _ e he haddr
      rw [step_act harrive, step_act harrive, show toward (.act side e) = side.other from if_pos he,
        join_endpoint, hstep, Option.map_map, Option.map_map]
      refine congrArg (Option.map · _) (funext fun s => ?_)
      simp only [join, Function.comp_apply, Chat.mk.injEq]
      constructor <;> funext x <;> cases side <;> cases x <;> rfl
    · have htoward : toward (.act side e) = side := if_neg he
      have hstep := @Endpoint.step_merge_receives net.host ((f side.other).endpoint side)
        ((f side).endpoint side) e (Bool.eq_false_iff.mpr he)
      by_cases harrive : e.isArrive = false
      · rw [step_act harrive, step_act harrive, htoward, join_endpoint, hstep, Option.map_map, Option.map_map]
        refine congrArg (Option.map · _) (funext fun s => ?_)
        simp only [join, Function.comp_apply, Chat.mk.injEq, outgoing_merge, List.append_nil]
        constructor <;> funext x <;> cases side <;> cases x <;> rfl
      · cases e with
        | arrive source datagram buf => rfl
        | call k message | send k memory | sender k stack | receiver | consumer => exact absurd rfl harrive
  | deliver side i buf =>
    simp only [step, toward, join_inFlight, join_endpoint]
    split
    · cases ((f side).inFlight side)[i]? with
      | none => rfl
      | some d =>
        simp only [Option.bind_eq_bind, Option.bind_some, Option.map_eq_bind, Option.bind_assoc,
          @Endpoint.step_merge_receives net.host _ _ (.arrive (net.address side.other) d.toList buf) rfl]
        refine congrArg (Option.bind _) (funext fun s => ?_)
        simp only [join, Function.comp_apply, Option.bind_some, Option.some.injEq, Chat.mk.injEq]
        constructor <;> funext x <;> cases side <;> cases x <;> rfl
    · rfl
  | drop side i =>
    simp only [step, toward, join_inFlight]
    split
    · simp only [join, Option.map_some, Option.some.injEq, Chat.mk.injEq]
      constructor <;> funext x <;> cases side <;> cases x <;> rfl
    · rfl
  | duplicate side i =>
    simp only [step, toward, join_inFlight]
    split
    · cases ((f side).inFlight side)[i]? with
      | none => rfl
      | some d =>
        simp only [join, Option.bind_eq_bind, Option.bind_some, Option.map_some, Option.some.injEq,
          Chat.mk.injEq]
        constructor <;> funext x <;> cases side <;> cases x <;> rfl
    · rfl

/-- The directions are the parts of a chat. -/
def directions (net : Network) : Parts (step net) Side where
  Inv := Addressed net
  inv_step := fun ha h => ha.step h
  part := toward
  join := join
  step_join := fun hf => step_join hf

/-- From a state in which each side has the address of the other, over a network with any faults,
a run of a chat is a run of each direction by itself, of the events in that direction: they happen
in the one exactly if they happen in the other, and the endpoints have the same sending and
receiving halves then. Events in another order between the directions lead to the same state. -/
theorem duplex (ha : Addressed net c) (evs : List Event) :
    (∀ t, run (step net) c evs = some t ↔
      ∃ direction : Side → Chat,
        (∀ side, run (step net) c (evs.filter (toward · = side)) = some (direction side)) ∧
          t = join direction) ∧
    ∀ evs', (∀ side, evs.filter (toward · = side) = evs'.filter (toward · = side)) →
      run (step net) c evs = run (step net) c evs' :=
  ⟨fun _ => (directions net).run_join (f := fun _ => c) fun _ => ha,
    fun _ => (directions net).run_of_parts_eq (f := fun _ => c) fun _ => ha⟩

/-- Two clients. -/
def clients : Side → Party
  | .left => ⟨true, garbageAddress, peerAddress, 1⟩
  | .right => ⟨true, garbageAddress, strangerAddress, 1⟩

/-- While the message of the left is on its way, the right sends one. -/
def crossing : List Event :=
  hiEvents.take 13 ++ .act .right (.call 0 [33]) :: .replicate 7 (.act .right (.send 0 usedMemory)) ++
    hiEvents.drop 13

/-- The message of the left arrives as if the right had not sent any. -/
theorem duplex_crossing :
    ∃ t, run (step hiNetwork) (start clients) crossing = some t ∧
      ∃ direction : Side → Chat,
        (∀ side, run (step hiNetwork) (start clients) (crossing.filter (toward · = side)) =
            some (direction side)) ∧
          (t.endpoint .right).delivered = ((direction .right).endpoint .right).delivered ∧
          (t.endpoint .right).pushed = ((direction .left).endpoint .right).pushed := by
  have ha : Addressed hiNetwork (start clients) := fun side => by cases side <;> rfl
  obtain ⟨t, ht⟩ : ∃ t, run (step hiNetwork) (start clients) crossing = some t := ⟨_, rfl⟩
  obtain ⟨direction, hrun, rfl⟩ := ((duplex ha crossing).1 t).mp ht
  exact ⟨_, ht, direction, hrun, rfl, rfl⟩

end Chat
end Ldp
