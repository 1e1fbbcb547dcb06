import Ldp.Chat
import Ldp.Proof.Datagrams

/-!
# A direction of a chat is a channel

Each endpoint of a chat runs as it does by itself, with the arrivals that the
network makes (`endpoint_run`). The datagrams on their way to a side, seen as the
packets that they decode to (`packets_step`), and so as their payloads, go through a
channel with the faults of the network (`channel_run`), and none is altered
(`intact`). What a side sends goes to the other side as long as that
is the address it has, which it keeps if it has it at the start
(`dest_of_addresses`, `addresses_of_start`).
-/

namespace Ldp

open Framework

theorem Side.other_other (side : Side) : side.other.other = side := by cases side <;> rfl

theorem Side.other_ne (side : Side) : side.other ≠ side := by cases side <;> exact nofun

theorem Side.eq_or_eq_other (x y : Side) : x = y ∨ x = y.other := by cases x <;> cases y <;> decide

namespace Chat

variable {net : Network} {c c' : Chat} {party : Side → Party} {evs : List Event} {side : Side} {i : Nat}

/-! ## Steps -/

theorem act_eq {e : Endpoint.Event} (h : step net c (.act side e) = some c') :
    e.isArrive = false ∧ ∃ s, (c.endpoint side).step net.host e = some s ∧ c' = {
      endpoint := Function.update c.endpoint side s
      inFlight := Function.update c.inFlight side.other
        (c.inFlight side.other ++ outgoing (net.address side.other) (c.endpoint side) s) } := by
  cases e with
  | arrive source datagram buf => simp only [step, reduceCtorEq] at h
  | call k message | send k memory | sender k stack | receiver | consumer =>
    obtain ⟨s, hs, h⟩ := Option.bind_eq_some_iff.mp h
    exact ⟨rfl, s, hs, (Option.some.inj h).symm⟩

theorem deliver_eq {buf : Vector UInt8 LDP_PACKET_SIZE} (h : step net c (.deliver side i buf) = some c') :
    (i = 0 ∨ net.faults.reorders = true) ∧ ∃ d s, (c.inFlight side)[i]? = some d ∧
      (c.endpoint side).step net.host (.arrive (net.address side.other) d.toList buf) = some s ∧
      c' = {
        endpoint := Function.update c.endpoint side s
        inFlight := Function.update c.inFlight side ((c.inFlight side).eraseIdx i) } := by
  simp only [step] at h
  split at h
  · rename_i hi
    obtain ⟨d, hd, h⟩ := Option.bind_eq_some_iff.mp h
    obtain ⟨s, hs, h⟩ := Option.bind_eq_some_iff.mp h
    exact ⟨hi, d, s, hd, hs, (Option.some.inj h).symm⟩
  · simp only [reduceCtorEq] at h

theorem drop_eq (h : step net c (.drop side i) = some c') :
    net.faults.drops = true ∧
      c' = { c with inFlight := Function.update c.inFlight side ((c.inFlight side).eraseIdx i) } := by
  simp only [step] at h
  split at h
  · rename_i hd
    exact ⟨hd, (Option.some.inj h).symm⟩
  · simp only [reduceCtorEq] at h

theorem duplicate_eq (h : step net c (.duplicate side i) = some c') :
    net.faults.duplicates = true ∧ ∃ d, (c.inFlight side)[i]? = some d ∧
      c' = { c with
        inFlight := Function.update c.inFlight side ((c.inFlight side).insertIdx (i + 1) d) } := by
  simp only [step] at h
  split at h
  · rename_i hd
    obtain ⟨d, hi, h⟩ := Option.bind_eq_some_iff.mp h
    exact ⟨hd, d, hi, (Option.some.inj h).symm⟩
  · simp only [reduceCtorEq] at h

/-- What happens in a chat to the endpoint of a side: nothing, a step of its own, or an
arrival from the other side. -/
theorem step_cases {e : Event} (h : step net c e = some c') (side : Side) :
    c'.endpoint side = c.endpoint side ∨
      (∃ ev, e = .act side ev ∧ ev.isArrive = false ∧
        (c.endpoint side).step net.host ev = some (c'.endpoint side)) ∨
      ∃ d : Vector UInt8 LDP_PACKET_SIZE, ∃ buf, d ∈ c.inFlight side ∧
        (c.endpoint side).step net.host (.arrive (net.address side.other) d.toList buf) =
          some (c'.endpoint side) := by
  cases e with
  | act x ev =>
    obtain ⟨he, s, hs, rfl⟩ := act_eq h
    by_cases hx : side = x
    · subst hx
      exact .inr (.inl ⟨ev, rfl, he, hs.trans (by simp only [Function.update_self])⟩)
    · exact .inl (Function.update_of_ne hx _ _)
  | deliver x i buf =>
    obtain ⟨-, d, s, hd, hs, rfl⟩ := deliver_eq h
    by_cases hx : side = x
    · subst hx
      exact .inr (.inr ⟨d, buf, List.mem_of_getElem? hd, hs.trans (by simp only [Function.update_self])⟩)
    · exact .inl (Function.update_of_ne hx _ _)
  | drop x i =>
    obtain ⟨-, rfl⟩ := drop_eq h
    exact .inl rfl
  | duplicate x i =>
    obtain ⟨-, d, -, rfl⟩ := duplicate_eq h
    exact .inl rfl

/-- Each endpoint of a chat runs as it does by itself. -/
theorem endpoint_run (h : run (step net) (start party) evs = some c) (side : Side) :
    ∃ evs, run (Endpoint.step net.host) (.chatter (party side).isClient (party side).memory
      (party side).resolved (party side).callers) evs = some (c.endpoint side) :=
  run_map (·.endpoint side) (fun hs => by
    rcases step_cases hs side with he | ⟨ev, -, -, he⟩ | ⟨d, buf, -, he⟩
    · exact .inl he
    · exact .inr ⟨ev, he⟩
    · exact .inr ⟨_, he⟩) h

/-! ## The network -/

/-- A datagram that fills the buffer arrives as itself. -/
theorem arrival_toList (host : ByteOrder) (d buf : Vector UInt8 LDP_PACKET_SIZE) :
    Endpoint.arrival host d.toList buf = LDPPacket.decoded host d := by
  rw [Endpoint.arrival, Vector.toList_inj.mp (Endpoint.recvfrom_whole (by simp) buf)]

/-- Nothing is altered: the datagrams in flight are packets on the wire, and those
received are not corrupted. -/
structure Intact (net : Network) (c : Chat) : Prop where
  wire : ∀ side, ∀ d ∈ c.inFlight side, ∃ p : LDPPacket, d = p.wire net.host
  received : ∀ side, ∀ x ∈ (c.endpoint side).received, x.2.isCorrupted = false

/-- What an endpoint's step sends are packets on the wire. -/
theorem outgoing_wire {s s' : Endpoint} {e : Endpoint.Event} {host : ByteOrder} {address : Sockaddr}
    (h : s.step host e = some s') {d : Vector UInt8 LDP_PACKET_SIZE} (hd : d ∈ outgoing address s s') :
    ∃ p : LDPPacket, d = p.wire host := by
  simp only [outgoing, List.mem_map, List.mem_filter] at hd
  obtain ⟨x, ⟨hx, -⟩, rfl⟩ := hd
  rcases Endpoint.step_sent h with hs | ⟨k, stack, packet, -, -, hs⟩
  · rw [hs, List.drop_length] at hx
    exact absurd hx List.not_mem_nil
  · rw [hs, List.drop_left] at hx
    obtain rfl := List.mem_singleton.mp hx
    exact ⟨packet, rfl⟩

/-- One direction gets other datagrams, which are packets on the wire. -/
theorem Intact.update (hi : Intact net c) {side : Side} {l : List (Vector UInt8 LDP_PACKET_SIZE)}
    (hl : ∀ d ∈ l, ∃ p : LDPPacket, d = p.wire net.host) :
    ∀ x, ∀ d ∈ Function.update c.inFlight side l x, ∃ p : LDPPacket, d = p.wire net.host := by
  intro x d hd
  by_cases hx : x = side
  · subst hx
    rw [Function.update_self] at hd
    exact hl d hd
  · rw [Function.update_of_ne hx] at hd
    exact hi.wire x d hd

theorem step_wire {e : Event} (hi : Intact net c) (h : step net c e = some c') (side : Side) :
    ∀ d ∈ c'.inFlight side, ∃ p : LDPPacket, d = p.wire net.host := by
  cases e with
  | act x e =>
    obtain ⟨-, s, hs, rfl⟩ := act_eq h
    refine hi.update (fun d hd => ?_) side
    rcases List.mem_append.mp hd with hd | hd
    · exact hi.wire _ d hd
    · exact outgoing_wire hs hd
  | deliver x i buf =>
    obtain ⟨-, d, s, -, -, rfl⟩ := deliver_eq h
    exact hi.update (fun d hd => hi.wire x d (List.eraseIdx_subset hd)) side
  | drop x i =>
    obtain ⟨-, rfl⟩ := drop_eq h
    exact hi.update (fun d hd => hi.wire x d (List.eraseIdx_subset hd)) side
  | duplicate x i =>
    obtain ⟨-, d, hd, rfl⟩ := duplicate_eq h
    refine hi.update (fun d' hd' => ?_) side
    rcases List.eq_or_mem_of_mem_insertIdx hd' with rfl | hd'
    · exact hi.wire x _ (List.mem_of_getElem? hd)
    · exact hi.wire x d' hd'

theorem step_uncorrupted {e : Event} (hi : Intact net c) (h : step net c e = some c') (side : Side) :
    ∀ x ∈ (c'.endpoint side).received, x.2.isCorrupted = false := by
  rcases step_cases h side with he | ⟨ev, -, hne, he⟩ | ⟨d, buf, hd, he⟩
  · rw [he]
    exact hi.received side
  · rw [(Endpoint.step_received he hne).1]
    exact hi.received side
  · obtain ⟨p, rfl⟩ := hi.wire side d hd
    obtain ⟨-, he⟩ := Endpoint.arrive_eq.mp he
    rw [he]
    intro x hx
    rcases List.mem_append.mp hx with hx | hx
    · exact hi.received side x hx
    · obtain rfl := List.mem_singleton.mp hx
      simp only [arrival_toList, LDPPacket.decoded_wire]

theorem start_received (side : Side) : ((start party).endpoint side).received = [] := by
  simp only [start]
  cases (party side).isClient <;> rfl

theorem start_sent (side : Side) : ((start party).endpoint side).sent = [] := by
  simp only [start]
  cases (party side).isClient <;> rfl

theorem intact (h : run (step net) (start party) evs = some c) : Intact net c := by
  refine run_induction (I := Intact net) (fun hi hs => ⟨step_wire hi hs, step_uncorrupted hi hs⟩)
    ⟨fun _ d hd => ?_, fun side x hx => ?_⟩ h
  · exact absurd hd List.not_mem_nil
  · rw [start_received] at hx
    exact absurd hx List.not_mem_nil

/-! ## The channel -/

/-- The payload that a datagram carries. -/
def payloadOf (host : ByteOrder) (d : Vector UInt8 LDP_PACKET_SIZE) : List UInt8 :=
  (LDPPacket.decoded host d).payload.toList

/-- The payloads on their way to `side`, as a channel: those sent to its address from
the other side, those in flight, and those that have arrived. -/
def channel (net : Network) (c : Chat) (side : Side) : Channel (List UInt8) where
  sent := ((c.endpoint side.other).sent.filter (·.dest = net.address side)).map (·.packet.payload.toList)
  inFlight := (c.inFlight side).map (payloadOf net.host)
  received := (c.endpoint side).received.map (·.2.payload.toList)

/-- A step of the other side sends its packet to `side`, or sends nothing there. -/
theorem outgoing_eq {s s' : Endpoint} {e : Endpoint.Event} {host : ByteOrder} (address : Sockaddr)
    (h : s.step host e = some s') :
    (outgoing address s s' = [] ∧ s'.sent.filter (·.dest = address) = s.sent.filter (·.dest = address)) ∨
      ∃ packet : LDPPacket, outgoing address s s' = [packet.wire host] ∧
        s'.sent.filter (·.dest = address) =
          s.sent.filter (·.dest = address) ++ [⟨packet, s.chateeSockaddr, packet.wire host⟩] := by
  rcases Endpoint.step_sent h with hs | ⟨k, stack, packet, -, -, hs⟩
  · refine .inl ⟨?_, by rw [hs]⟩
    rw [outgoing, hs, List.drop_length]
    rfl
  · rw [outgoing, hs, List.drop_left]
    by_cases ha : s.chateeSockaddr = address
    · exact .inr ⟨packet, by simp [ha], by simp [ha]⟩
    · exact .inl ⟨by simp [ha], by simp [ha]⟩

/-- The packets on their way to `side`, as a channel: those sent to its address from the other
side, those in flight, as they would be decoded, and those received. -/
def packets (net : Network) (c : Chat) (side : Side) : Channel LDPPacket where
  sent := ((c.endpoint side.other).sent.filter (·.dest = net.address side)).map
    fun x => LDPPacket.decoded net.host (x.packet.wire net.host)
  inFlight := (c.inFlight side).map (LDPPacket.decoded net.host)
  received := (c.endpoint side).received.map Prod.snd

/-- What happens to a datagram on its way to `side` happens to the channel to it. -/
def Event.inChannel (side : Side) : Event → Option (Channel.Event LDPPacket)
  | .act .. => none
  | .deliver x i _ => if x = side then some (.deliver i) else none
  | .drop x i => if x = side then some (.drop i) else none
  | .duplicate x i => if x = side then some (.duplicate i) else none

/-- What happens in a chat happens to the channel to `side`, is a sending into it, or does not
show there. -/
theorem packets_step {e : Event} (h : step net c e = some c') (side : Side) :
    (∃ ev, e.inChannel side = some ev ∧
        Channel.step net.faults (packets net c side) ev = some (packets net c' side)) ∨
      e.inChannel side = none ∧ (packets net c' side = packets net c side ∨
        ∃ p, Channel.step net.faults (packets net c side) (.send p) = some (packets net c' side)) := by
  cases e with
  | act x e =>
    refine .inr ⟨rfl, ?_⟩
    obtain ⟨he, s, hs, rfl⟩ := act_eq h
    rcases side.eq_or_eq_other x with rfl | rfl
    · -- the receiving side sends to the other
      refine .inl ?_
      simp only [packets, Function.update_of_ne side.other_ne, Function.update_of_ne side.other_ne.symm,
        Function.update_self, (Endpoint.step_received hs he).1]
    · simp only [packets, Side.other_other, Function.update_self, Function.update_of_ne x.other_ne]
      rcases outgoing_eq (net.address x.other) hs with ⟨ho, hf⟩ | ⟨packet, ho, hf⟩
      · exact .inl (by rw [ho, hf, List.append_nil])
      · refine .inr ⟨LDPPacket.decoded net.host (packet.wire net.host), ?_⟩
        rw [ho, hf]
        simp [Channel.step]
  | deliver x i buf =>
    obtain ⟨hi', d, s, hd, hs, rfl⟩ := deliver_eq h
    obtain ⟨-, rfl⟩ := Endpoint.arrive_eq.mp hs
    rcases side.eq_or_eq_other x with rfl | rfl
    · refine .inl ⟨.deliver i, if_pos rfl, ?_⟩
      simp only [Channel.step, packets, Function.update_self, Function.update_of_ne side.other_ne, hi',
        ↓reduceIte, List.getElem?_map, hd, arrival_toList]
      simp [List.eraseIdx_map]
    · refine .inr ⟨if_neg x.other_ne.symm, .inl ?_⟩
      simp only [packets, Side.other_other, Function.update_self, Function.update_of_ne x.other_ne]
  | drop x i =>
    obtain ⟨hf, rfl⟩ := drop_eq h
    rcases side.eq_or_eq_other x with rfl | rfl
    · refine .inl ⟨.drop i, if_pos rfl, ?_⟩
      simp only [Channel.step, packets, Function.update_self, hf, ↓reduceIte, List.eraseIdx_map]
    · exact .inr ⟨if_neg x.other_ne.symm, .inl (by simp only [packets, Function.update_of_ne x.other_ne])⟩
  | duplicate x i =>
    obtain ⟨hf, d, hd, rfl⟩ := duplicate_eq h
    rcases side.eq_or_eq_other x with rfl | rfl
    · refine .inl ⟨.duplicate i, if_pos rfl, ?_⟩
      simp only [Channel.step, packets, Function.update_self, hf, ↓reduceIte, List.getElem?_map, hd,
        Option.map_some, List.map_insertIdx]
    · exact .inr ⟨if_neg x.other_ne.symm, .inl (by simp only [packets, Function.update_of_ne x.other_ne])⟩

/-- The payloads are those of the packets. -/
theorem channel_eq (net : Network) (c : Chat) (side : Side) :
    channel net c side = (packets net c side).map (·.payload.toList) := by
  simp only [channel, packets, Channel.map, List.map_map]
  simp only [Function.comp_def, LDPPacket.decoded_wire]
  rfl

/-- What happens in a chat happens to the channel to `side`, or does not show there. -/
theorem channel_step {e : Event} (h : step net c e = some c') (side : Side) :
    channel net c' side = channel net c side ∨
      ∃ ev, Channel.step net.faults (channel net c side) ev = some (channel net c' side) := by
  simp only [channel_eq]
  rcases packets_step h side with ⟨ev, -, hp⟩ | ⟨-, hp | ⟨p, hp⟩⟩
  · exact .inr ⟨_, Channel.step_map _ hp⟩
  · exact .inl (by rw [hp])
  · exact .inr ⟨_, Channel.step_map _ hp⟩

theorem start_channel (net : Network) (party : Side → Party) (side : Side) :
    channel net (start party) side = .init := by
  simp only [channel, start_sent, start_received]
  rfl

/-- In a run of a chat, the channel to a side runs as a channel with the faults of the
network. -/
theorem channel_run (h : run (step net) (start party) evs = some c) (side : Side) :
    ∃ evs', run (Channel.step net.faults) .init evs' = some (channel net c side) := by
  rw [← start_channel net party side]
  exact run_map (channel net · side) (fun hs => channel_step hs side) h

/-! ## The addresses -/

/-- Where a thread of `ldpPacketSender` of `side` sends, it sends to the other side. -/
def Addresses (net : Network) (side : Side) (c : Chat) : Event → Prop
  | .act x (.sender k _) =>
    x = side → (c.endpoint side).senders[k]? = some .locked →
      (c.endpoint side).chateeSockaddr = net.address side.other
  | _ => True

/-- Then all that a side has sent went to the other. -/
theorem dest_of_addresses (h : run (step net) (start party) evs = some c)
    (hok : AllSteps (step net) (Addresses net side) (start party) evs) :
    ∀ x ∈ (c.endpoint side).sent, x.dest = net.address side.other := by
  refine run_induction_of (I := fun c => ∀ x ∈ (c.endpoint side).sent, x.dest = net.address side.other)
    (fun {c e c'} hi ho hs => ?_) (fun x hx => ?_) hok h
  · rcases step_cases hs side with he | ⟨ev, rfl, -, he⟩ | ⟨d, buf, -, he⟩
    · rwa [he]
    · rcases Endpoint.step_sent he with he | ⟨k, stack, packet, rfl, hk, he⟩
      · rwa [he]
      · rw [he]
        refine fun y hy => (List.mem_append.mp hy).elim (hi y) fun hy => ?_
        obtain rfl := List.mem_singleton.mp hy
        exact ho rfl hk
    · obtain ⟨-, he⟩ := Endpoint.arrive_eq.mp he
      rwa [he]
  · rw [start_sent] at hx
    exact absurd hx List.not_mem_nil

/-- A side that has the address of the other at the start keeps it, as datagrams come
from nowhere else. -/
theorem addresses_of_start (h0 : ((start party).endpoint side).chateeSockaddr = net.address side.other) :
    AllSteps (step net) (Addresses net side) (start party) evs := by
  refine allSteps_of_invariant (I := fun c => (c.endpoint side).chateeSockaddr = net.address side.other)
    (fun {c e} hi => ?_) (fun {c e c'} hi hs => ?_) h0 evs
  · cases e with
    | act x ev =>
      cases ev with
      | sender k stack => exact fun _ _ => hi
      | call k message | send k memory | arrive source datagram buf | receiver | consumer => trivial
    | deliver x i buf | drop x i | duplicate x i => trivial
  · rcases step_cases hs side with he | ⟨ev, -, hne, he⟩ | ⟨d, buf, -, he⟩
    · rwa [he]
    · rwa [(Endpoint.step_received he hne).2]
    · obtain ⟨-, he⟩ := Endpoint.arrive_eq.mp he
      rw [he]

end Chat
end Ldp
