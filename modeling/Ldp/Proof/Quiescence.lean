import Ldp.Proof.Completion
import Ldp.Proof.Delivery

/-!
# A chat comes to rest

Every datagram on its way has a step of the network and eleven of the threads on the other
side to go, and so has every packet that is still to be sent. With them, the work that is
left in a chat (`Chat.work`) bounds its runs: each step of a thread and each delivery takes
some of it away, and only calls of `send` and duplications bring some (`step_work`). So a
chat that is left to itself comes to rest, in whatever order the threads and the network go
on, and without faults everything pushed on one side is then delivered on the other
(`chat_comes_to_rest`).
-/

namespace Ldp

open Framework

namespace Endpoint

variable {host : ByteOrder} {s s' : Endpoint}

/-- A step keeps listening. -/
theorem step_isListening {e : Event} (h : s.step host e = some s') : s'.isListening = s.isListening := by
  cases e with
  | call k message =>
    obtain ⟨pc, -, h⟩ := Option.bind_eq_some_iff.mp h
    obtain ⟨-, rfl⟩ := call_eq h
    rfl
  | send k memory =>
    obtain ⟨pc, -, h⟩ := Option.bind_eq_some_iff.mp h
    obtain ⟨_, _, _, _, _, _, rfl⟩ := send_eq h
    rfl
  | sender k stack =>
    obtain ⟨pc, -, h⟩ := Option.bind_eq_some_iff.mp h
    obtain ⟨_, _, _, _, _, _, rfl, -⟩ := ldpPacketSender_eq h
    rfl
  | arrive source datagram buf =>
    obtain ⟨-, rfl⟩ := arrive_eq.mp h
    rfl
  | receiver =>
    obtain ⟨_, _, _, _, _, _, rfl⟩ := ldpPacketReceiver_eq h
    rfl
  | consumer =>
    obtain ⟨_, _, _, _, _, _, _, rfl⟩ := messageConsumer_eq h
    rfl

variable {isClient : Bool} {memory resolved : Sockaddr} {callers : Nat} {evs : List Event}

theorem listening (h : run (step host) (chatter isClient memory resolved callers) evs = some s) :
    s.isListening = true :=
  run_induction (I := fun s => s.isListening = true) (fun hi hs => (step_isListening hs).trans hi)
    (by cases isClient <;> rfl) h

/-- While the receiver listens, anything can arrive. -/
theorem exists_arrive (host : ByteOrder) (hr : s.receiver = .listening) (hl : s.isListening = true)
    (source : Sockaddr) (datagram : List UInt8) (buf : Vector UInt8 LDP_PACKET_SIZE) :
    ∃ s', s.step host (.arrive source datagram buf) = some s' :=
  ⟨_, arrive_eq.mpr ⟨⟨hr, hl⟩, rfl⟩⟩

/-- Before anything has happened, there is nothing to do. -/
theorem chatter_finished : (chatter isClient memory resolved callers).Finished := by
  have hcallers : ∀ pc ∈ List.replicate callers SendPc.idle, pc.partWay = false := fun pc hpc => by
    rw [List.eq_of_mem_replicate hpc]
    rfl
  have hsenders : ∀ pc ∈ [SenderPc.wait, .wait], pc = .wait := by decide
  cases isClient <;> exact ⟨hcallers, hsenders, rfl, rfl, rfl, rfl⟩

theorem chatter_unsent : (chatter isClient memory resolved callers).unsent = 0 := by
  have hunsent : (chatter isClient memory resolved callers).unsent =
      0 + ((List.replicate callers SendPc.idle).map SendPc.pending).sum + 0 := by cases isClient <;> rfl
  have hpending : ((List.replicate callers SendPc.idle).map SendPc.pending).sum = 0 :=
    List.sum_eq_zero (List.forall_mem_map.mpr fun pc hpc => by rw [List.eq_of_mem_replicate hpc]; rfl)
  omega

end Endpoint

namespace Chat

variable {net : Network} {c c' : Chat} {party : Side → Party} {evs : List Event} {side : Side}

/-- The work that is left in the endpoint of a side, and for what comes from and to it. -/
def sideWork (c : Chat) (side : Side) : Nat :=
  (c.endpoint side).work + 12 * (c.endpoint side).unsent + 12 * (c.inFlight side).length

def work (c : Chat) : Nat := c.sideWork .left + c.sideWork .right

theorem work_eq (c : Chat) (side : Side) : c.work = c.sideWork side + c.sideWork side.other := by
  cases side with
  | left => rfl
  | right => exact Nat.add_comm _ _

/-- A step of a thread that is not the beginning of a call, or a delivery. -/
def Event.isOwn : Event → Bool
  | .act _ e => e.isOwn
  | .deliver .. => true
  | .drop .. | .duplicate .. => false

/-- The work that an event brings. -/
def Event.gain : Event → Nat
  | .act _ (.call _ message) => 23 * packetCount message + 2
  | .act .. | .deliver .. => 0
  | .drop .. => 1
  | .duplicate .. => 13

/-- What a step sends to an address is among what it sends. -/
theorem length_outgoing_le {s s' : Endpoint} {e : Endpoint.Event} {host : ByteOrder} (address : Sockaddr)
    (h : s.step host e = some s') : s.sent.length + (outgoing address s s').length ≤ s'.sent.length := by
  rw [outgoing, List.length_map]
  rcases Endpoint.step_sent h with hs | ⟨k, stack, packet, -, -, hs⟩
  · rw [hs, List.drop_length, List.filter_nil, List.length_nil, Nat.add_zero]
  · rw [hs, List.drop_left, List.length_append]
    exact Nat.add_le_add_left (List.length_filter_le _ _) _

theorem act_work {e : Endpoint.Event} (h : step net c (.act side e) = some c') :
    c'.work + 1 ≤ c.work + (Event.act side e).gain := by
  obtain ⟨he, s, hs, rfl⟩ := act_eq h
  have hout := length_outgoing_le (net.address side.other) hs
  rw [work_eq _ side, work_eq c side]
  simp only [sideWork, Function.update_self, Function.update_of_ne side.other_ne,
    Function.update_of_ne side.other_ne.symm, List.length_append]
  cases hown : e.isOwn with
  | true =>
    obtain ⟨hw, hu, -⟩ := Endpoint.own_work hown hs
    omega
  | false =>
    cases e with
    | call k message =>
      obtain ⟨hw, hu, hsent⟩ := Endpoint.call_work hs
      rw [hsent] at hout
      simp only [Event.gain]
      omega
    | arrive source datagram buf => exact absurd he.symm Bool.false_ne_true
    | send k memory | sender k stack | receiver | consumer => exact absurd hown.symm Bool.false_ne_true

/-- A datagram less on its way to a side, and no more than eleven steps there instead. -/
theorem deliver_work {i : Nat} {buf : Vector UInt8 LDP_PACKET_SIZE}
    (h : step net c (.deliver side i buf) = some c') : c'.work + 1 ≤ c.work := by
  obtain ⟨-, d, s, hd, hs, rfl⟩ := deliver_eq h
  obtain ⟨hw, hu, -⟩ := Endpoint.arrive_work hs
  have hlen := List.length_eraseIdx_add_one (List.getElem?_eq_some_iff.mp hd).1
  rw [work_eq _ side, work_eq c side]
  simp only [sideWork, Function.update_self, Function.update_of_ne side.other_ne]
  omega

/-- Each step takes away one unit of the work that is left and that its event brings. -/
theorem step_work {e : Event} (h : step net c e = some c') : c'.work + 1 ≤ c.work + e.gain := by
  cases e with
  | act side e => exact act_work h
  | deliver side i buf => exact deliver_work h
  | drop side i =>
    obtain ⟨-, rfl⟩ := drop_eq h
    have hlen := List.length_eraseIdx_le (c.inFlight side) i
    rw [work_eq _ side, work_eq c side]
    simp only [sideWork, Function.update_self, Function.update_of_ne side.other_ne, Event.gain]
    omega
  | duplicate side i =>
    obtain ⟨-, d, hd, rfl⟩ := duplicate_eq h
    have hlen := @List.length_insertIdx_le_succ _ (c.inFlight side) d (i + 1)
    rw [work_eq _ side, work_eq c side]
    simp only [sideWork, Function.update_self, Function.update_of_ne side.other_ne, Event.gain]
    omega

theorem gain_of_isOwn {e : Event} (he : e.isOwn = true) : e.gain = 0 := by
  cases e with
  | act side e =>
    cases e with
    | call k message => exact absurd he Bool.false_ne_true
    | send k memory | sender k stack | arrive source datagram buf | receiver | consumer => rfl
  | deliver side i buf => rfl
  | drop side i | duplicate side i => exact absurd he Bool.false_ne_true

theorem own_work {e : Event} (he : e.isOwn = true) (h : step net c e = some c') : c'.work + 1 ≤ c.work := by
  have hw := step_work h
  rwa [gain_of_isOwn he] at hw

theorem start_work : (start party).work = 0 := by
  have hside : ∀ side, (start party).sideWork side = 0 := fun side => by
    have hw := Endpoint.chatter_finished.work_eq
      (show run (Endpoint.step .little) (.chatter (party side).isClient (party side).memory
        (party side).resolved (party side).callers) [] = _ from rfl)
    simp only [sideWork, start, hw, Endpoint.chatter_unsent, List.length_nil]
  rw [work, hside, hside]

/-! ## Where a chat is at rest -/

/-- A step of an endpoint that cannot happen in a chat cannot happen in the endpoint. -/
theorem act_none {e : Endpoint.Event} (he : e.isOwn = true) :
    step net c (.act side e) = none ↔ (c.endpoint side).step net.host e = none := by
  cases e with
  | call k message | arrive source datagram buf => exact absurd he Bool.false_ne_true
  | send k memory | sender k stack | receiver | consumer =>
    simp only [step, Option.bind_eq_bind, Option.bind_eq_none_iff, reduceCtorEq, imp_false,
      ← Option.eq_none_iff_forall_ne_some]

/-- Every endpoint has finished, and nothing is on its way. -/
def Quiet (c : Chat) : Prop := ∀ side, (c.endpoint side).Finished ∧ c.inFlight side = []

theorem quiet_of_atRest (h : run (step net) (start party) evs = some c)
    (hrest : AtRest (step net) (·.isOwn = true) c) : c.Quiet := by
  intro side
  obtain ⟨evs', hrun⟩ := endpoint_run h side
  have hfinished := Endpoint.finished_of_atRest hrun fun e he => (act_none he).mp (hrest (.act side e) he)
  refine ⟨hfinished, ?_⟩
  cases hf : c.inFlight side with
  | nil => rfl
  | cons d rest =>
    -- the receiver listens, so that the first datagram can be delivered
    have hnone := hrest (.deliver side 0 blankBuffer) rfl
    obtain ⟨s', hs'⟩ := Endpoint.exists_arrive net.host hfinished.receiver
      (Endpoint.listening hrun) (net.address side.other) d.toList blankBuffer
    simp [step, hf, hs'] at hnone

theorem atRest_of_quiet (h : run (step net) (start party) evs = some c) (hq : c.Quiet) :
    AtRest (step net) (·.isOwn = true) c := by
  intro e he
  cases e with
  | act side e =>
    obtain ⟨evs', hrun⟩ := endpoint_run h side
    exact (act_none he).mpr (Endpoint.atRest_of_finished hrun (hq side).1 e he)
  | deliver side i buf =>
    simp only [step, (hq side).2, List.getElem?_nil, Option.bind_eq_bind, Option.bind_none, ite_self]
  | drop side i | duplicate side i => exact absurd he Bool.false_ne_true

/-- Without faults, what was pushed on a side is then delivered on the other, if it went there. -/
theorem Quiet.delivered_eq (hq : c.Quiet) (h : run (step net) (start party) evs = some c)
    (hf : net.faults = .none) (hdest : ∀ x ∈ (c.endpoint side).sent, x.dest = net.address side.other) :
    (c.endpoint side.other).delivered = (c.endpoint side).pushedPayloads := by
  have hall := nothing_lost_of_dest h side hf hdest
  obtain ⟨hfinished, hflight⟩ := hq side.other
  simpa only [hfinished.consumer, hfinished.queue, hfinished.receiver, hflight, (hq side).1.window,
    ConsumerPc.held, ReceiverPc.held, List.append_nil, List.map_nil] using hall

/-- In every run of a chat, from its start and from any state that it has reached: its steps
are no more than the calls, drops and duplications bring; left to itself it comes to rest,
by steps of the threads and deliveries in any order, of which there are no more than there
is work; it is at rest where all threads have finished and nothing is on its way, and then,
without faults, what was pushed on a side that sends to the other is delivered there. -/
theorem chat_comes_to_rest (h : run (step net) (start party) evs = some c) :
    evs.length + c.work ≤ (evs.map Event.gain).sum ∧
    (∃ own t, (∀ e ∈ own, e.isOwn = true) ∧ run (step net) c own = some t ∧ t.Quiet) ∧
    ∀ own t, (∀ e ∈ own, e.isOwn = true) → run (step net) c own = some t →
      own.length + t.work ≤ c.work ∧ (AtRest (step net) (·.isOwn = true) t ↔ t.Quiet) ∧
      (t.Quiet → net.faults = .none → ∀ side,
        AllSteps (step net) (Addresses net side) (start party) (evs ++ own) →
        (t.endpoint side.other).delivered = (t.endpoint side).pushedPayloads) := by
  have hstep : ∀ {c e c'}, e.isOwn = true → step net c e = some c' → c'.work + 1 ≤ c.work :=
    fun he hs => own_work he hs
  refine ⟨?_, ?_, fun own t hown ht => ?_⟩
  · have hall : ∀ e ∈ evs, True := fun _ _ => trivial
    have hlen := length_add_work_le (fun _ hs => step_work hs) hall h
    rwa [start_work, Nat.zero_add] at hlen
  · obtain ⟨own, t, hown, ht, hrest⟩ := exists_run_to_rest hstep c
    exact ⟨own, t, hown, ht, quiet_of_atRest (run_append_of h ht) hrest⟩
  · have hreach := run_append_of h ht
    exact ⟨length_add_work_le_of hstep hown ht, ⟨quiet_of_atRest hreach, atRest_of_quiet hreach⟩,
      fun hq hf side hok => hq.delivered_eq hreach hf (dest_of_addresses hreach hok)⟩

/-- Once the client has called `send` with `hi`, the chat has no more than 24 steps to go, and
delivers what it pushes. -/
theorem chat_comes_to_rest_hi :
    ∃ c own t, run (step hiNetwork) (start hiParty) [.act .left (.call 0 [104, 105])] = some c ∧
      run (step hiNetwork) c own = some t ∧ own.length ≤ 24 ∧ t.Quiet ∧
      (t.endpoint .right).delivered = (t.endpoint .left).pushedPayloads := by
  have h : run (step hiNetwork) (start hiParty) [.act .left (.call 0 [104, 105])] = _ := rfl
  obtain ⟨hlen, ⟨own, t, hown, ht, hq⟩, hall⟩ := chat_comes_to_rest h
  obtain ⟨hle, -, hdelivered⟩ := hall own t hown ht
  have hgain : ([.act .left (.call 0 [104, 105])].map Event.gain).sum = 25 := by decide
  rw [hgain, List.length_singleton] at hlen
  exact ⟨_, own, t, h, ht, by omega, hq, hdelivered hq rfl .left (addresses_of_start rfl)⟩

end Chat
end Ldp
