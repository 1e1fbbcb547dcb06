import Ldp.Proof.Network
import Ldp.Proof.Callers

/-!
# From `send` to `onMessage`

The window of the sending side, the channel and the message queue of the receiving
side one after the other: what is delivered of what is pushed, for each kind of
network (`chat_integrity`). Since each packet is delivered by itself, as a string of
eight bytes, what is delivered is never the messages that were sent, unless there
were none (`delivered_eq_called_iff`).
-/

namespace Ldp

open Framework

namespace Endpoint

variable {host : ByteOrder} {s : Endpoint}

/-- The payloads pushed to the window, and those handed to `sendto`. -/
def pushedPayloads (s : Endpoint) : List (List UInt8) := s.pushed.map (·.2.payload.toList)

def sentPayloads (s : Endpoint) : List (List UInt8) := s.sent.map (·.packet.payload.toList)

variable {isClient : Bool} {memory resolved : Sockaddr} {callers : Nat} {evs : List Event}

theorem payload_order (h : run (step host) (chatter isClient memory resolved callers) evs = some s) :
    s.sentPayloads ++ s.senderWindow.map (·.payload.toList) = s.pushedPayloads := by
  have ho := congrArg (List.map fun p : LDPPacket => p.payload.toList) (window_inv h).order
  simp only [window, List.map_append, List.map_map] at ho
  exact ho

end Endpoint

namespace Chat

variable {net : Network} {c : Chat} {party : Side → Party} {evs : List Event}

/-- All that has arrived at a side is accepted. -/
theorem accepted_eq (h : run (step net) (start party) evs = some c) (side : Side) :
    (c.endpoint side).accepted = (channel net c side).received := by
  rw [Endpoint.accepted, List.filter_eq_self.mpr fun x hx => by rw [(intact h).received side x hx]; rfl]
  rfl

/-- What goes to the channel of the other side is pushed before. -/
theorem channel_sent_sublist (h : run (step net) (start party) evs = some c) (side : Side) :
    (channel net c side.other).sent.Sublist (c.endpoint side).pushedPayloads := by
  simp only [channel, Side.other_other]
  refine (List.filter_sublist.map _).trans ?_
  obtain ⟨evs', h'⟩ := endpoint_run h side
  rw [← Endpoint.payload_order h']
  exact List.sublist_append_left _ _

/-- What is delivered, and all that is on its way from there, is what has arrived. -/
theorem delivered_received (h : run (step net) (start party) evs = some c) (side : Side) :
    (c.endpoint side).delivered ++ (c.endpoint side).consumer.held ++
      (c.endpoint side).receivedMessageQueue ++ (c.endpoint side).receiver.held =
        (channel net c side).received := by
  obtain ⟨evs', h'⟩ := endpoint_run h side
  rw [Endpoint.delivery_order h', accepted_eq h]

theorem delivered_sublist (h : run (step net) (start party) evs = some c) (side : Side) :
    (c.endpoint side).delivered.Sublist (channel net c side).received := by
  rw [← delivered_received h side, List.append_assoc, List.append_assoc]
  exact List.sublist_append_left _ _

/-- Without faults, and where all that `side` has sent went to the other side, nothing is
lost between the window of `side` and `onMessage` of the other. -/
theorem nothing_lost_of_dest (h : run (step net) (start party) evs = some c) (side : Side)
    (hf : net.faults = .none) (hdest : ∀ x ∈ (c.endpoint side).sent, x.dest = net.address side.other) :
    (c.endpoint side.other).delivered ++ (c.endpoint side.other).consumer.held ++
      (c.endpoint side.other).receivedMessageQueue ++ (c.endpoint side.other).receiver.held ++
      (c.inFlight side.other).map (payloadOf net.host) ++
      (c.endpoint side).senderWindow.map (·.payload.toList) = (c.endpoint side).pushedPayloads := by
  obtain ⟨evs₁, h₁⟩ := channel_run h side.other
  rw [hf] at h₁
  have heq := Channel.eq_run h₁
  have hsent : (channel net c side.other).sent = (c.endpoint side).sentPayloads := by
    simp only [channel, Side.other_other]
    rw [List.filter_eq_self.mpr fun x hx => by simpa using hdest x hx]
    rfl
  obtain ⟨evs', h'⟩ := endpoint_run h side
  rw [delivered_received h side.other, ← Endpoint.payload_order h', ← hsent, ← heq]
  rfl

/-- So it is where all that `side` sends goes to the other side. -/
theorem nothing_lost (h : run (step net) (start party) evs = some c) (side : Side) (hf : net.faults = .none)
    (hok : AllSteps (step net) (Addresses net side) (start party) evs) :
    (c.endpoint side.other).delivered ++ (c.endpoint side.other).consumer.held ++
      (c.endpoint side.other).receivedMessageQueue ++ (c.endpoint side.other).receiver.held ++
      (c.inFlight side.other).map (payloadOf net.host) ++
      (c.endpoint side).senderWindow.map (·.payload.toList) = (c.endpoint side).pushedPayloads :=
  nothing_lost_of_dest h side hf (dest_of_addresses h hok)

/-- The chat delivers what is pushed, in either direction. If the network may drop,
duplicate and reorder, what is delivered is among what was pushed; if it only drops,
it is in order and without duplicates; if it does none of these, and the side that
pushes sends to the other, nothing is lost on the way. -/
theorem chat_integrity (h : run (step net) (start party) evs = some c) (side : Side) :
    (c.endpoint side.other).delivered ⊆ (c.endpoint side).pushedPayloads ∧
    (net.faults.duplicates = false → net.faults.reorders = false →
      (c.endpoint side.other).delivered.Sublist (c.endpoint side).pushedPayloads) ∧
    (net.faults = .none → AllSteps (step net) (Addresses net side) (start party) evs →
      (c.endpoint side.other).delivered ++ (c.endpoint side.other).consumer.held ++
        (c.endpoint side.other).receivedMessageQueue ++ (c.endpoint side.other).receiver.held ++
        (c.inFlight side.other).map (payloadOf net.host) ++
        (c.endpoint side).senderWindow.map (·.payload.toList) = (c.endpoint side).pushedPayloads) ∧
    (((start party).endpoint side).chateeSockaddr = net.address side.other →
      AllSteps (step net) (Addresses net side) (start party) evs) := by
  have hd := delivered_sublist h side.other
  have hp := channel_sent_sublist h side
  obtain ⟨evs', h'⟩ := channel_run h side.other
  refine ⟨?_, fun hdup hre => ?_, nothing_lost h side, addresses_of_start⟩
  · have hsub := Channel.subset_run h'
    exact fun m hm => hp.subset ((List.append_subset.mp hsub).1 (hd.subset hm))
  · have hsub := Channel.sublist_run hdup hre h'
    exact (hd.trans (List.sublist_append_left _ _)).trans (hsub.trans hp)

/-- A network without faults, with a client on the left and a server on the right. -/
def hiNetwork : Network where
  host := .little
  faults := .none
  address
    | .left => strangerAddress
    | .right => peerAddress

def hiParty : Side → Party
  | .left => ⟨true, garbageAddress, peerAddress, 1⟩
  | .right => ⟨false, garbageAddress, garbageAddress, 1⟩

/-- The client sends the message `hi`, in memory that was used before, and it is delivered. -/
def hiEvents : List Event :=
  .act .left (.call 0 [104, 105]) :: .replicate 7 (.act .left (.send 0 usedMemory)) ++
    .replicate 5 (.act .left (.sender 1 blankBuffer)) ++ [.deliver .right 0 blankBuffer] ++
    .replicate 5 (.act .right .receiver) ++ .replicate 6 (.act .right .consumer)

theorem chat_integrity_hi :
    ∃ c, run (step hiNetwork) (start hiParty) hiEvents = some c ∧
      (c.endpoint .right).delivered = [[104, 105, 0, 0, 88, 88, 88, 88]] ∧
      (c.endpoint .right).delivered ++ (c.endpoint .right).consumer.held ++
        (c.endpoint .right).receivedMessageQueue ++ (c.endpoint .right).receiver.held ++
        (c.inFlight .right).map (payloadOf .little) ++
        (c.endpoint .left).senderWindow.map (·.payload.toList) = (c.endpoint .left).pushedPayloads := by
  refine ⟨_, rfl, by decide, ?_⟩
  have h := chat_integrity (show run (step hiNetwork) (start hiParty) hiEvents = _ from rfl) .left
  exact h.2.2.1 rfl (h.2.2.2 rfl)

/-! ## Messages -/

/-- Everything that `side` sent has been delivered, and its call of `send` has returned. -/
structure Drained (c : Chat) (side : Side) : Prop where
  callers : (c.endpoint side).callers = [.idle]
  window : (c.endpoint side).senderWindow = []
  network : c.inFlight side.other = []
  receiver : (c.endpoint side.other).receiver.held = []
  queue : (c.endpoint side.other).receivedMessageQueue = []
  consumer : (c.endpoint side.other).consumer.held = []

/-- No messages but those of an empty sequence are as many as their packets, and of
eight bytes each. -/
theorem eq_nil_of_length_eq {messages : List (List UInt8)} (h8 : ∀ m ∈ messages, m.length = 8)
    (hlen : messages.length = (messages.map packetCount).sum) : messages = [] := by
  have hsum : messages.map packetCount = messages.map fun _ => 2 :=
    List.map_congr_left fun m hm => by rw [packetCount, h8 m hm]
  rw [hsum, List.map_const', List.sum_replicate_nat] at hlen
  exact List.length_eq_zero_iff.mp (by omega)

/-- Over a network without faults, once everything has been delivered, the strings
delivered are the messages sent exactly if no message was sent. -/
theorem delivered_eq_called_iff (h : run (step net) (start party) evs = some c) (side : Side)
    (hone : (party side).callers = 1) (hf : net.faults = .none)
    (hok : AllSteps (step net) (Addresses net side) (start party) evs) (hd : Drained c side) :
    (c.endpoint side.other).delivered = (c.endpoint side).called.map Prod.snd ↔
      (c.endpoint side).called.map Prod.snd = [] := by
  obtain ⟨evs', hrun⟩ := endpoint_run h side
  rw [hone] at hrun
  obtain ⟨hcalled, hpushed⟩ := Endpoint.by_single_caller hrun
  obtain ⟨-, returned, groups, part, hc, hp, hs, rfl⟩ :=
    Endpoint.callers_progress hrun 0 .idle (by rw [hd.callers]; rfl)
  simp only [SendPc.current, Option.map_none, Option.toList_none, List.append_nil] at hc hp
  -- what is delivered are the payloads pushed, one for each packet of the messages
  have hdelivered : (c.endpoint side.other).delivered = groups.flatten.map (·.payload.toList) := by
    have hall := nothing_lost h side hf hok
    rw [hd.consumer, hd.queue, hd.receiver, hd.network, hd.window] at hall
    simp only [List.append_nil, List.map_nil, Endpoint.pushedPayloads] at hall
    rw [hall, ← hp, hpushed, List.map_map]
    rfl
  rw [← hcalled, hc, hdelivered]
  refine ⟨fun he => ?_, fun hnil => ?_⟩
  · refine eq_nil_of_length_eq (fun m hm => ?_) ?_
    · rw [← he] at hm
      obtain ⟨p, -, rfl⟩ := List.mem_map.mp hm
      exact Vector.length_toList ..
    · rw [← length_flatten_sends hs, ← he, List.length_map]
  · subst hnil
    obtain rfl := List.forall₂_nil_left_iff.mp hs
    rfl

/-- The message `hi` is delivered as eight bytes, with what the memory held. -/
theorem hi_delivered :
    ∃ c, run (step hiNetwork) (start hiParty) hiEvents = some c ∧ Drained c .left ∧
      (c.endpoint .left).called.map Prod.snd = [[104, 105]] ∧
      (c.endpoint .right).delivered = [[104, 105, 0, 0, 88, 88, 88, 88]] ∧
      (c.endpoint .right).delivered ≠ (c.endpoint .left).called.map Prod.snd :=
  ⟨_, rfl, ⟨rfl, rfl, rfl, rfl, rfl, rfl⟩, by decide, by decide, by decide⟩

theorem delivered_eq_called_iff_hi :
    ∃ c, run (step hiNetwork) (start hiParty) hiEvents = some c ∧
      ((c.endpoint .right).delivered = (c.endpoint .left).called.map Prod.snd ↔
        (c.endpoint .left).called.map Prod.snd = []) :=
  ⟨_, rfl, delivered_eq_called_iff (show run (step hiNetwork) (start hiParty) hiEvents = _ from rfl)
    .left rfl rfl (addresses_of_start rfl) ⟨rfl, rfl, rfl, rfl, rfl, rfl⟩⟩

end Chat
end Ldp
