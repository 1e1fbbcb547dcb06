import Ldp.Framework.NoisyChannel
import Ldp.NoisyChat
import Ldp.Proof.Delivery

/-!
# A chat over a network that alters datagrams

Each direction of such a chat is a channel of packets as the receiver would decode them, whose
test is the checksum (`packets_step`). So what the noise does to a chat is bounded by what the
checksum does not tell (`noisy_integrity`), and every packet is accounted for: those pushed, and
those that the network makes, are those delivered, on their way or sent elsewhere, and those that
it loses (`noisy_balance`).
-/

namespace Ldp

open Framework

namespace NoisyChat

open Chat (packets)

variable {net : Network} {c c' : Chat} {party : Side → Party} {evs : List Event} {side : Side}

/-- Each endpoint runs as it does by itself. -/
theorem endpoint_run (h : run (step net) (.start party) evs = some c) (side : Side) :
    ∃ evs, run (Endpoint.step net.host) (.chatter (party side).isClient (party side).memory
      (party side).resolved (party side).callers) evs = some (c.endpoint side) :=
  run_map (·.endpoint side) (fun {c e c'} hs => by
    cases e with
    | chat e =>
      rcases Chat.step_cases hs side with he | ⟨ev, -, -, he⟩ | ⟨d, buf, -, he⟩
      · exact .inl he
      · exact .inr ⟨ev, he⟩
      · exact .inr ⟨_, he⟩
    | alter x i d =>
      obtain rfl := Option.some.inj hs
      exact .inl rfl) h

/-- The checksum of the packet matches. -/
def intact (p : LDPPacket) : Bool := !p.isCorrupted

/-- What happens to a datagram on its way to `side` happens to the channel to it. -/
def Event.inChannel (host : ByteOrder) (side : Side) : Event → Option (NoisyChannel.Event LDPPacket)
  | .chat e => (e.inChannel side).map .channel
  | .alter x i d => if x = side then some (.alter i (LDPPacket.decoded host d)) else none

theorem alter_of_inChannel {host : ByteOrder} {e : Event} {i : Nat} {p : LDPPacket}
    (h : e.inChannel host side = some (.alter i p)) : ∃ d, e = .alter side i d ∧ p = LDPPacket.decoded host d := by
  cases e with
  | chat e =>
    obtain ⟨ev, -, he⟩ := Option.map_eq_some_iff.mp h
    exact absurd he nofun
  | alter x j d =>
    obtain ⟨rfl, he⟩ := Option.ite_none_right_eq_some.mp h
    obtain ⟨rfl, rfl⟩ := NoisyChannel.Event.alter.inj (Option.some.inj he)
    exact ⟨d, rfl, rfl⟩

/-- What happens in the chat happens to the channel to `side`, is a sending into it, or does not
show there. -/
theorem packets_step {e : Event} (h : step net c e = some c') (side : Side) :
    (∃ ev, e.inChannel net.host side = some ev ∧
        NoisyChannel.step net.faults (packets net c side) ev = some (packets net c' side)) ∨
      e.inChannel net.host side = none ∧ (packets net c' side = packets net c side ∨
        ∃ p, NoisyChannel.step net.faults (packets net c side) (.channel (.send p)) =
          some (packets net c' side)) := by
  cases e with
  | chat e =>
    rcases Chat.packets_step h side with ⟨ev, he, hp⟩ | ⟨he, hp⟩
    · exact .inl ⟨.channel ev, by rw [Event.inChannel, he, Option.map_some], hp⟩
    · exact .inr ⟨by rw [Event.inChannel, he, Option.map_none], hp⟩
  | alter x i d =>
    obtain rfl := Option.some.inj h
    rcases side.eq_or_eq_other x with rfl | rfl
    · refine .inl ⟨_, if_pos rfl, ?_⟩
      simp only [NoisyChannel.step, packets, Function.update_self, List.map_set]
    · exact .inr ⟨if_neg x.other_ne.symm, .inl (by simp only [packets, Function.update_of_ne x.other_ne])⟩

/-! ## What is delivered -/

theorem start_packets (net : Network) (party : Side → Party) (side : Side) :
    packets net (.start party) side = .init := by
  simp only [packets, Chat.start_sent, Chat.start_received]
  rfl

/-- What is received and in flight was sent, or has been put there by an alteration. -/
theorem mem_packets (h : run (step net) (.start party) evs = some c) (side : Side) :
    ∀ p ∈ (packets net c side).received ++ (packets net c side).inFlight,
      p ∈ (packets net c side).sent ∨ ∃ i d, .alter side i d ∈ evs ∧ p = LDPPacket.decoded net.host d := by
  refine run_induction_mem (I := fun c => ∀ p ∈ (packets net c side).received ++
      (packets net c side).inFlight, p ∈ (packets net c side).sent ∨
        ∃ i d, .alter side i d ∈ evs ∧ p = LDPPacket.decoded net.host d)
    (fun {c e c'} he hi hs => ?_) ?_ h
  · rcases packets_step hs side with ⟨ev, hev, hp⟩ | ⟨-, hp | ⟨p, hp⟩⟩
    · refine NoisyChannel.mem_step hi (fun i a ha => ?_) hp
      obtain ⟨d, rfl, rfl⟩ := alter_of_inChannel (ha ▸ hev)
      exact ⟨i, d, he, rfl⟩
    · rwa [hp]
    · exact NoisyChannel.mem_step hi (by simp) hp
  · rw [start_packets]
    exact fun p hp => absurd hp List.not_mem_nil

/-- Where the checksum tells every alteration, and the network neither duplicates nor
reorders, what is intact is in order. -/
theorem packets_sublist (h : run (step net) (.start party) evs = some c) (side : Side)
    (hdup : net.faults.duplicates = false) (hre : net.faults.reorders = false)
    (halter : ∀ i d, .alter side i d ∈ evs → (LDPPacket.decoded net.host d).isCorrupted = true) :
    (((packets net c side).received ++ (packets net c side).inFlight).filter intact).Sublist
      (packets net c side).sent := by
  refine run_induction_mem (I := fun c => (((packets net c side).received ++
      (packets net c side).inFlight).filter intact).Sublist (packets net c side).sent)
    (fun {c e c'} he hi hs => ?_) ?_ h
  · rcases packets_step hs side with ⟨ev, hev, hp⟩ | ⟨-, hp | ⟨p, hp⟩⟩
    · refine NoisyChannel.sublist_step hdup hre hi (fun i a ha => ?_) hp
      obtain ⟨d, rfl, rfl⟩ := alter_of_inChannel (ha ▸ hev)
      simp only [intact, halter i d he, Bool.not_true]
    · rwa [hp]
    · exact NoisyChannel.sublist_step hdup hre hi (by simp) hp
  · rw [start_packets]
    exact List.Sublist.refl _

/-- What a side accepts are the payloads of what it has received intact. -/
theorem accepted_eq (net : Network) (c : Chat) (side : Side) :
    (c.endpoint side).accepted = ((packets net c side).received.filter intact).map (·.payload.toList) := by
  simp only [Endpoint.accepted, packets, List.filter_map, List.map_map]
  rfl

/-- What is sent to `side` are packets that the other side has pushed. -/
theorem sent_sublist (h : run (step net) (.start party) evs = some c) (side : Side) :
    ((packets net c side.other).sent.map (·.payload.toList)).Sublist (c.endpoint side).pushedPayloads := by
  obtain ⟨evs', h'⟩ := endpoint_run h side
  rw [← Endpoint.payload_order h']
  refine List.Sublist.trans ?_ (List.sublist_append_left _ _)
  simp only [packets, Side.other_other, List.map_map]
  have hpayload : (fun p : LDPPacket => p.payload.toList) ∘
      (fun x : Sendto => LDPPacket.decoded net.host (x.packet.wire net.host)) =
        fun x => x.packet.payload.toList := by
    funext x
    simp only [Function.comp_apply, LDPPacket.decoded_wire]
  rw [hpayload]
  exact List.filter_sublist.map _

theorem delivered_sublist (h : run (step net) (.start party) evs = some c) (side : Side) :
    (c.endpoint side).delivered.Sublist (c.endpoint side).accepted := by
  obtain ⟨evs', h'⟩ := endpoint_run h side
  rw [← Endpoint.delivery_order h', List.append_assoc, List.append_assoc]
  exact List.sublist_append_left _ _

/-- What is delivered was pushed, or an alteration has put it there. -/
theorem mem_delivered (h : run (step net) (.start party) evs = some c) (side : Side) :
    ∀ m ∈ (c.endpoint side.other).delivered, m ∈ (c.endpoint side).pushedPayloads ∨
      ∃ i d, .alter side.other i d ∈ evs ∧ (LDPPacket.decoded net.host d).isCorrupted = false ∧
        m = Chat.payloadOf net.host d := by
  intro m hm
  have hd := delivered_sublist h side.other
  rw [accepted_eq net] at hd
  obtain ⟨p, hp, rfl⟩ := List.mem_map.mp (hd.subset hm)
  obtain ⟨hp, hintact⟩ := List.mem_filter.mp hp
  rcases mem_packets h side.other p (List.mem_append_left _ hp) with hsent | ⟨i, d, he, rfl⟩
  · exact .inl ((sent_sublist h side).subset (List.mem_map_of_mem hsent))
  · exact .inr ⟨i, d, he, by simpa only [intact, Bool.not_eq_true'] using hintact, rfl⟩

/-- Without duplicates and overtaking, it is in order, if the checksum tells every alteration. -/
theorem delivered_in_order (h : run (step net) (.start party) evs = some c) (side : Side)
    (hdup : net.faults.duplicates = false) (hre : net.faults.reorders = false)
    (halter : ∀ i d, .alter side.other i d ∈ evs → (LDPPacket.decoded net.host d).isCorrupted = true) :
    (c.endpoint side.other).delivered.Sublist (c.endpoint side).pushedPayloads := by
  have hd := delivered_sublist h side.other
  rw [accepted_eq net] at hd
  have hsub := packets_sublist h side.other hdup hre halter
  rw [List.filter_append] at hsub
  exact hd.trans ((((List.sublist_append_left _ _).trans hsub).map _).trans (sent_sublist h side))

/-- Over a network that may drop, duplicate, reorder and alter datagrams, what is delivered was
pushed on the other side or is the payload that an alteration gave to a datagram with a
matching checksum. If the checksum tells every alteration and the network neither
duplicates nor reorders, what is delivered was pushed in the same order. -/
theorem noisy_integrity (h : run (step net) (.start party) evs = some c) (side : Side) :
    (∀ m ∈ (c.endpoint side.other).delivered, m ∈ (c.endpoint side).pushedPayloads ∨
      ∃ i d, .alter side.other i d ∈ evs ∧ (LDPPacket.decoded net.host d).isCorrupted = false ∧
        m = Chat.payloadOf net.host d) ∧
    (net.faults.duplicates = false → net.faults.reorders = false →
      (∀ i d, .alter side.other i d ∈ evs → (LDPPacket.decoded net.host d).isCorrupted = true) →
        (c.endpoint side.other).delivered.Sublist (c.endpoint side).pushedPayloads) :=
  ⟨mem_delivered h side, delivered_in_order h side⟩

/-- The client sends the message `hi`; its datagram is altered, and then `rest` happens. -/
def hiAltered (datagram : Vector UInt8 LDP_PACKET_SIZE) (rest : List Chat.Event) : List Event :=
  (Chat.hiEvents.take 13).map .chat ++ .alter .right 0 datagram :: rest.map .chat

/-- Another last byte, which the checksum does not cover. -/
def lastByteAltered : Vector UInt8 LDP_PACKET_SIZE :=
  #v[227, 167, 3, 0, 123, 3, 21, 104, 105, 0, 0, 88, 88, 88, 33]

theorem noisy_integrity_hi :
    ∃ c, run (step Chat.hiNetwork) (.start Chat.hiParty)
        (hiAltered lastByteAltered (Chat.hiEvents.drop 13)) = some c ∧
      (c.endpoint .right).delivered = [[104, 105, 0, 0, 88, 88, 88, 33]] ∧
      ∀ m ∈ (c.endpoint .right).delivered, m ∈ (c.endpoint .left).pushedPayloads ∨
        ∃ i d, .alter .right i d ∈ hiAltered lastByteAltered (Chat.hiEvents.drop 13) ∧
          (LDPPacket.decoded .little d).isCorrupted = false ∧ m = Chat.payloadOf .little d :=
  ⟨_, rfl, by decide, (noisy_integrity (show run (step Chat.hiNetwork) (.start Chat.hiParty)
    (hiAltered lastByteAltered (Chat.hiEvents.drop 13)) = _ from rfl) .left).1⟩

/-! ## How much is delivered -/

/-- How many packets of `side` are on their way to `onMessage` of the other side: in the window,
intact in flight, or held or queued there. -/
def onTheWay (net : Network) (c : Chat) (side : Side) : Nat :=
  (c.endpoint side).senderWindow.length + (packets net c side.other).inFlight.countP intact +
    (c.endpoint side.other).receiver.held.length + (c.endpoint side.other).receivedMessageQueue.length +
    (c.endpoint side.other).consumer.held.length

/-- The calls of `sendto` of `side` to the address of the other side, and to others. -/
def sentThere (net : Network) (c : Chat) (side : Side) : List Sendto :=
  (c.endpoint side).sent.filter (·.dest = net.address side.other)

def sentElsewhere (net : Network) (c : Chat) (side : Side) : List Sendto :=
  (c.endpoint side).sent.filter fun x => !decide (x.dest = net.address side.other)

/-- How many intact datagrams on their way to `side` an event drops or alters. -/
def lost (net : Network) (side : Side) (c : Chat) (e : Event) : Nat :=
  (e.inChannel net.host side).elim 0 (NoisyChannel.lost intact (packets net c side))

/-- How many it duplicates, or makes by an alteration. -/
def gained (net : Network) (side : Side) (c : Chat) (e : Event) : Nat :=
  (e.inChannel net.host side).elim 0 (NoisyChannel.gained intact (packets net c side))

/-- A datagram on its way to `side` may be lost in the event. -/
def Event.loss (side : Side) : Event → Nat
  | .chat (.drop x _) | .alter x _ _ => if x = side then 1 else 0
  | .chat _ => 0

/-- An intact datagram may be on its way to `side` in the event that was not sent. -/
def Event.surplus (host : ByteOrder) (side : Side) : Event → Nat
  | .chat (.duplicate x _) => if x = side then 1 else 0
  | .chat _ => 0
  | .alter x _ d => if x = side ∧ (LDPPacket.decoded host d).isCorrupted = false then 1 else 0

theorem lost_le (net : Network) (side : Side) (c : Chat) (e : Event) : lost net side c e ≤ e.loss side := by
  cases e with
  | chat e =>
    cases e with
    | act x e => exact Nat.le_refl 0
    | deliver x i buf | drop x i | duplicate x i =>
      by_cases hx : x = side <;> simp [lost, Event.inChannel, Chat.Event.inChannel, hx, NoisyChannel.lost,
        Event.loss, Bool.toNat_le]
  | alter x i d =>
    by_cases hx : x = side <;> simp [lost, Event.inChannel, hx, NoisyChannel.lost, Event.loss, Bool.toNat_le]

theorem gained_le (net : Network) (side : Side) (c : Chat) (e : Event) :
    gained net side c e ≤ e.surplus net.host side := by
  cases e with
  | chat e =>
    cases e with
    | act x e => exact Nat.le_refl 0
    | deliver x i buf | drop x i | duplicate x i =>
      by_cases hx : x = side <;> simp [gained, Event.inChannel, Chat.Event.inChannel, hx, NoisyChannel.gained,
        Event.surplus, Bool.toNat_le]
  | alter x i d =>
    by_cases hx : x = side
    · cases hc : (LDPPacket.decoded net.host d).isCorrupted <;>
        simp [gained, Event.inChannel, hx, NoisyChannel.gained, Event.surplus, intact, hc, Bool.toNat_le]
    · simp [gained, Event.inChannel, hx, Event.surplus]

theorem countP_sent (net : Network) (c : Chat) (side : Side) :
    (packets net c side.other).sent.countP intact = (sentThere net c side).length := by
  have hintact : ∀ p ∈ (packets net c side.other).sent, intact p = true := by
    intro p hp
    obtain ⟨x, -, rfl⟩ := List.mem_map.mp hp
    simp only [intact, LDPPacket.decoded_wire, Bool.not_false]
  rw [List.countP_eq_length.mpr hintact]
  simp only [packets, Side.other_other, List.length_map, sentThere]

/-- How many intact packets have arrived at a side or are in flight to it. -/
def arrived (net : Network) (c : Chat) (side : Side) : Nat :=
  NoisyChannel.arrived intact (packets net c side)

/-- What is sent to a side, and gained on the way, arrives there or is lost. -/
theorem step_balance {e : Event} (h : step net c e = some c') (side : Side) :
    (packets net c' side).sent.countP intact + arrived net c side + gained net side c e =
      (packets net c side).sent.countP intact + arrived net c' side + lost net side c e := by
  rcases packets_step h side with ⟨ev, hev, hp⟩ | ⟨hev, hp | ⟨p, hp⟩⟩
  · simp only [lost, gained, hev, Option.elim_some]
    exact NoisyChannel.balance_step intact hp
  · simp only [lost, gained, hev, Option.elim_none, arrived, hp]
  · simp only [lost, gained, hev, Option.elim_none]
    exact NoisyChannel.balance_step intact hp

theorem run_balance (h : run (step net) (.start party) evs = some c) (side : Side) :
    (packets net c side).sent.countP intact + total (step net) (gained net side) (.start party) evs =
      arrived net c side + total (step net) (lost net side) (.start party) evs := by
  have hrun := run_conserved (fun hs => step_balance hs side) h
  have hstart : arrived net (.start party) side = 0 := by
    rw [arrived, start_packets]
    rfl
  rwa [hstart, start_packets, show (Channel.init : Channel LDPPacket).sent = [] from rfl, List.countP_nil,
    Nat.add_zero, Nat.zero_add] at hrun

/-- Over such a network every packet is accounted for: those that a side has pushed, and the
intact datagrams that the network has made, by a duplicate or an alteration, are those that are
delivered, on their way or sent elsewhere, and the intact ones that it has dropped or altered.
The same holds of those sent to the other side and accepted there. What is lost is no more than
the drops and the alterations, and what is gained no more than the duplicates and the alterations
that the checksum does not tell. -/
theorem noisy_balance (h : run (step net) (.start party) evs = some c) (side : Side) :
    (c.endpoint side).pushed.length + total (step net) (gained net side.other) (.start party) evs =
        (c.endpoint side.other).delivered.length + onTheWay net c side + (sentElsewhere net c side).length +
          total (step net) (lost net side.other) (.start party) evs ∧
      (sentThere net c side).length + total (step net) (gained net side.other) (.start party) evs =
        (c.endpoint side.other).accepted.length + (packets net c side.other).inFlight.countP intact +
          total (step net) (lost net side.other) (.start party) evs ∧
      total (step net) (lost net side.other) (.start party) evs ≤ (evs.map (Event.loss side.other)).sum ∧
      total (step net) (gained net side.other) (.start party) evs ≤
        (evs.map (Event.surplus net.host side.other)).sum := by
  have hbalance := run_balance h side.other
  rw [countP_sent] at hbalance
  obtain ⟨evs₁, h₁⟩ := endpoint_run h side
  obtain ⟨evs₂, h₂⟩ := endpoint_run h side.other
  have hpushed := congrArg List.length (Endpoint.payload_order h₁)
  have hdelivered := congrArg List.length (Endpoint.delivery_order h₂)
  have haccepted : (c.endpoint side.other).accepted.length = (packets net c side.other).received.countP intact := by
    rw [accepted_eq net, List.length_map, List.countP_eq_length_filter]
  have hsent : (c.endpoint side).sent.length =
      (sentThere net c side).length + (sentElsewhere net c side).length :=
    List.length_eq_length_filter_add _
  simp only [Endpoint.sentPayloads, Endpoint.pushedPayloads, List.length_append, List.length_map] at hpushed
  simp only [List.length_append] at hdelivered
  simp only [arrived, NoisyChannel.arrived] at hbalance
  refine ⟨?_, by omega, total_le (lost_le net side.other) _ _, total_le (gained_le net side.other) _ _⟩
  rw [onTheWay]
  omega

/-- A network that may do anything. -/
def faultyNetwork : Network := { Chat.hiNetwork with faults := ⟨true, true, true⟩ }

/-- The client sends `hi` and then `yo`. The datagram of `hi` is duplicated and that of `yo`
dropped; what arrives is delivered. -/
def hiTwice : List Chat.Event :=
  Chat.hiEvents.take 13 ++ .act .left (.call 0 [121, 111]) ::
    .replicate 7 (.act .left (.send 0 usedMemory)) ++ .replicate 5 (.act .left (.sender 0 blankBuffer)) ++
    [.duplicate .right 0, .drop .right 2] ++ Chat.hiEvents.drop 13 ++ Chat.hiEvents.drop 13

theorem noisy_balance_hi :
    ∃ c, run (step faultyNetwork) (.start Chat.hiParty) (hiTwice.map .chat) = some c ∧
      (c.endpoint .left).pushed.length = 2 ∧ (c.endpoint .right).delivered.length = 2 ∧
      (c.endpoint .left).pushed.length + total (step faultyNetwork) (gained faultyNetwork .right)
            (.start Chat.hiParty) (hiTwice.map .chat) =
        (c.endpoint .right).delivered.length + onTheWay faultyNetwork c .left +
          (sentElsewhere faultyNetwork c .left).length +
          total (step faultyNetwork) (lost faultyNetwork .right) (.start Chat.hiParty)
            (hiTwice.map .chat) ∧
      total (step faultyNetwork) (lost faultyNetwork .right) (.start Chat.hiParty) (hiTwice.map .chat) = 1 :=
  ⟨_, rfl, by decide, by decide, (noisy_balance (show run (step faultyNetwork) (.start Chat.hiParty)
    (hiTwice.map .chat) = _ from rfl) .left).1, by decide⟩

end NoisyChat

end Ldp
