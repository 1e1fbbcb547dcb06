import Ldp.Proof.Atomicity
import Ldp.Proof.Network

/-!
# A chat between atomic endpoints

The chat, with the same network, between two endpoints without threads. As each endpoint of a
chat implements the atomic one, and as what a round of a thread sends is what its event sends
(`act_shows`), a chat implements the chat between atomic endpoints.
-/

namespace Ldp

open Framework

structure AtomicChat where
  endpoint : Side → Atomic
  /-- The datagrams on their way to each side. -/
  inFlight : Side → List (Vector UInt8 LDP_PACKET_SIZE)

namespace AtomicChat

def start (address : Side → Sockaddr) (callers : Side → Nat) : AtomicChat where
  endpoint side := .start (address side) (callers side)
  inFlight _ := []

inductive Event
  | act (side : Side) (e : Atomic.Event)
  | deliver (side : Side) (i : Nat) (buf : Vector UInt8 LDP_PACKET_SIZE)
  | drop (side : Side) (i : Nat)
  | duplicate (side : Side) (i : Nat)

/-- The datagrams that an event from `a` to `a'` has sent to `address`. -/
def outgoing (address : Sockaddr) (a a' : Atomic) : List (Vector UInt8 LDP_PACKET_SIZE) :=
  ((a'.sent.drop a.sent.length).filter (·.dest = address)).map (·.datagram)

/-- One event. Datagrams arrive through the network only. -/
def step (net : Network) (c : AtomicChat) : Event → Option AtomicChat
  | .act _ (.arrive ..) => none
  | .act side e => do
    let a ← (c.endpoint side).step net.host e
    let out := outgoing (net.address side.other) (c.endpoint side) a
    some {
      endpoint := Function.update c.endpoint side a
      inFlight := Function.update c.inFlight side.other (c.inFlight side.other ++ out) }
  | .deliver side i buf =>
    if i = 0 ∨ net.faults.reorders then do
      let datagram ← (c.inFlight side)[i]?
      let a ← (c.endpoint side).step net.host (.arrive (net.address side.other) datagram.toList buf)
      some {
        endpoint := Function.update c.endpoint side a
        inFlight := Function.update c.inFlight side ((c.inFlight side).eraseIdx i) }
    else none
  | .drop side i =>
    if net.faults.drops then
      some { c with inFlight := Function.update c.inFlight side ((c.inFlight side).eraseIdx i) }
    else none
  | .duplicate side i =>
    if net.faults.duplicates then do
      let datagram ← (c.inFlight side)[i]?
      some { c with
        inFlight := Function.update c.inFlight side ((c.inFlight side).insertIdx (i + 1) datagram) }
    else none

/-- The chat of the endpoints that represent those of `c`. -/
def chat (isClient : Side → Bool) (c : AtomicChat) : Chat where
  endpoint side := (c.endpoint side).endpoint (isClient side)
  inFlight := c.inFlight

end AtomicChat

def Atomic.Event.isArrive : Atomic.Event → Bool
  | .arrive .. => true
  | _ => false

theorem AtomicChat.act_step {net : Network} {c : AtomicChat} {side : Side} {act : Atomic.Event} {a : Atomic}
    (he : act.isArrive = false) (h : (c.endpoint side).step net.host act = some a) :
    step net c (.act side act) = some {
      endpoint := Function.update c.endpoint side a
      inFlight := Function.update c.inFlight side.other
        (c.inFlight side.other ++ outgoing (net.address side.other) (c.endpoint side) a) } := by
  cases act with
  | arrive source datagram buf => exact absurd he.symm Bool.false_ne_true
  | call k message | push k memory | finish k | sendto | queue | dequeue | deliver =>
    simp only [step, h, Option.bind_eq_bind, Option.bind_some]

theorem AtomicChat.act_eq {net : Network} {c c' : AtomicChat} {side : Side} {act : Atomic.Event}
    (h : step net c (.act side act) = some c') :
    act.isArrive = false ∧ ∃ a, (c.endpoint side).step net.host act = some a ∧ c' = {
      endpoint := Function.update c.endpoint side a
      inFlight := Function.update c.inFlight side.other
        (c.inFlight side.other ++ outgoing (net.address side.other) (c.endpoint side) a) } := by
  cases act with
  | arrive source datagram buf => simp only [step, reduceCtorEq] at h
  | call k message | push k memory | finish k | sendto | queue | dequeue | deliver =>
    obtain ⟨a, ha, h⟩ := Option.bind_eq_some_iff.mp h
    exact ⟨rfl, a, ha, (Option.some.inj h).symm⟩

theorem AtomicChat.deliver_eq {net : Network} {c c' : AtomicChat} {side : Side} {i : Nat}
    {buf : Vector UInt8 LDP_PACKET_SIZE} (h : step net c (.deliver side i buf) = some c') :
    (i = 0 ∨ net.faults.reorders = true) ∧ ∃ d a, (c.inFlight side)[i]? = some d ∧
      (c.endpoint side).step net.host (.arrive (net.address side.other) d.toList buf) = some a ∧
      c' = {
        endpoint := Function.update c.endpoint side a
        inFlight := Function.update c.inFlight side ((c.inFlight side).eraseIdx i) } := by
  simp only [step] at h
  split at h
  · rename_i hi
    obtain ⟨d, hd, h⟩ := Option.bind_eq_some_iff.mp h
    obtain ⟨a, ha, h⟩ := Option.bind_eq_some_iff.mp h
    exact ⟨hi, d, a, hd, ha, (Option.some.inj h).symm⟩
  · simp only [reduceCtorEq] at h

namespace Chat

variable {net : Network} {c c' : Chat} {side : Side}

def atomic (c : Chat) : AtomicChat where
  endpoint side := (c.endpoint side).atomic
  inFlight := c.inFlight

def shown (c : Chat) : Event → List AtomicChat.Event
  | .act side e => ((c.endpoint side).shown e).map (.act side)
  | .deliver side i buf => [.deliver side i buf]
  | .drop side i => [.drop side i]
  | .duplicate side i => [.duplicate side i]

/-- A step of an endpoint shows one event, an arrival if it is one, or none. -/
theorem shown_cases (s : Endpoint) (e : Endpoint.Event) :
    s.shown e = [] ∧ e.isArrive = false ∨ ∃ act, s.shown e = [act] ∧ act.isArrive = e.isArrive := by
  cases e with
  | call k message | arrive source datagram buf => exact .inr ⟨_, rfl, rfl⟩
  | send k memory =>
    simp only [Endpoint.shown]
    split
    · exact .inr ⟨_, rfl, rfl⟩
    · split
      · exact .inl ⟨rfl, rfl⟩
      · exact .inr ⟨_, rfl, rfl⟩
    · exact .inl ⟨rfl, rfl⟩
  | sender k stack =>
    simp only [Endpoint.shown]
    split
    · exact .inr ⟨_, rfl, rfl⟩
    · exact .inl ⟨rfl, rfl⟩
  | receiver =>
    simp only [Endpoint.shown]
    split
    · exact .inr ⟨_, rfl, rfl⟩
    · exact .inl ⟨rfl, rfl⟩
  | consumer =>
    simp only [Endpoint.shown]
    split
    · exact .inr ⟨_, rfl, rfl⟩
    · exact .inr ⟨_, rfl, rfl⟩
    · exact .inl ⟨rfl, rfl⟩

/-! ## A step shows an event, or nothing -/

/-- The endpoint of a side is another one. -/
theorem atomic_update (c : Chat) (side : Side) (s : Endpoint)
    (inFlight : Side → List (Vector UInt8 LDP_PACKET_SIZE)) :
    atomic { endpoint := Function.update c.endpoint side s, inFlight } =
      { endpoint := Function.update c.atomic.endpoint side s.atomic, inFlight } := by
  simp only [atomic, AtomicChat.mk.injEq, and_true]
  exact funext fun x => Function.apply_update (fun _ => Endpoint.atomic) c.endpoint side s x

theorem outgoing_atomic (address : Sockaddr) (s s' : Endpoint) :
    AtomicChat.outgoing address s.atomic s'.atomic = outgoing address s s' := rfl

theorem act_atomic {e : Endpoint.Event} (hi : (c.endpoint side).Sound)
    (h : step net c (.act side e) = some c') :
    run (AtomicChat.step net) c.atomic (c.shown (.act side e)) = some c'.atomic := by
  obtain ⟨he, s, hs, rfl⟩ := act_eq h
  have hatomic := Endpoint.step_atomic hi hs
  rw [atomic_update, shown]
  rcases shown_cases (c.endpoint side) e with ⟨hshown, -⟩ | ⟨act, hshown, hact⟩
  · -- nothing is seen of the endpoint, so nothing is sent
    rw [hshown, run_nil, Option.some.injEq] at hatomic
    rw [hshown, List.map_nil, run_nil, ← outgoing_atomic, ← hatomic, AtomicChat.outgoing, List.drop_length,
      List.filter_nil, List.map_nil, List.append_nil, Function.update_eq_self]
    exact congrArg (fun f => some (AtomicChat.mk f c.inFlight)) (Function.update_eq_self side _).symm
  · rw [hshown] at hatomic ⊢
    exact run_single (AtomicChat.act_step (hact.trans he) (run_single_iff.mp hatomic))

theorem deliver_atomic {i : Nat} {buf : Vector UInt8 LDP_PACKET_SIZE}
    (h : step net c (.deliver side i buf) = some c') :
    run (AtomicChat.step net) c.atomic [.deliver side i buf] = some c'.atomic := by
  obtain ⟨hi, d, s, hd, hs, rfl⟩ := deliver_eq h
  rw [atomic_update]
  refine run_single ?_
  have hd' : (c.atomic.inFlight side)[i]? = some d := hd
  have ha' : (c.atomic.endpoint side).step net.host (.arrive (net.address side.other) d.toList buf) =
      some s.atomic := run_single_iff.mp (Endpoint.arrive_atomic hs)
  simp only [AtomicChat.step, hi, ↓reduceIte, hd', ha', Option.bind_eq_bind, Option.bind_some]
  rfl

/-- Both endpoints are sound. -/
def Sound (c : Chat) : Prop := ∀ side, (c.endpoint side).Sound

theorem Sound.step {e : Event} (hi : c.Sound) (h : step net c e = some c') : c'.Sound := by
  intro side
  rcases step_cases h side with he | ⟨ev, -, -, he⟩ | ⟨d, buf, -, he⟩
  · exact he ▸ hi side
  · exact (hi side).step he
  · exact (hi side).step he

/-- A step leads to where the events that it shows lead. -/
theorem step_atomic {e : Event} (hi : c.Sound) (h : step net c e = some c') :
    run (AtomicChat.step net) c.atomic (c.shown e) = some c'.atomic := by
  cases e with
  | act side e => exact act_atomic (hi side) h
  | deliver side i buf => exact deliver_atomic h
  | drop side i =>
    obtain ⟨hf, rfl⟩ := drop_eq h
    refine run_single ?_
    simp only [AtomicChat.step, hf, ↓reduceIte]
    rfl
  | duplicate side i =>
    obtain ⟨hf, d, hd, rfl⟩ := duplicate_eq h
    have hd' : (c.atomic.inFlight side)[i]? = some d := hd
    refine run_single ?_
    simp only [AtomicChat.step, hf, ↓reduceIte, hd', Option.bind_eq_bind, Option.bind_some]
    rfl

/-! ## An event is shown by a round -/

/-- What a run sends is what it adds to what was sent. -/
theorem sent_append {host : ByteOrder} {s t : Endpoint} {evs : List Endpoint.Event}
    (h : run (Endpoint.step host) s evs = some t) : ∃ sent, t.sent = s.sent ++ sent := by
  refine run_induction (I := fun t : Endpoint => ∃ sent, t.sent = s.sent ++ sent) (fun {u e u'} hi hs => ?_)
    ⟨[], (List.append_nil _).symm⟩ h
  obtain ⟨sent, hsent⟩ := hi
  rcases Endpoint.step_sent hs with he | ⟨k, stack, packet, -, -, he⟩
  · exact ⟨sent, he.trans hsent⟩
  · exact ⟨_, by rw [he, hsent, List.append_assoc]⟩

theorem outgoing_append {s s' t : Endpoint} {sent sent' : List Sendto} (address : Sockaddr)
    (hs : s'.sent = s.sent ++ sent) (ht : t.sent = s'.sent ++ sent') :
    outgoing address s t = outgoing address s s' ++ outgoing address s' t := by
  rw [outgoing, outgoing, outgoing, ht, hs, List.drop_left, List.drop_left, List.append_assoc, List.drop_left,
    List.filter_append, List.map_append]

theorem act_step {e : Endpoint.Event} {s : Endpoint} (he : e.isArrive = false)
    (h : (c.endpoint side).step net.host e = some s) :
    step net c (.act side e) = some {
      endpoint := Function.update c.endpoint side s
      inFlight := Function.update c.inFlight side.other
        (c.inFlight side.other ++ outgoing (net.address side.other) (c.endpoint side) s) } := by
  cases e with
  | arrive source datagram buf => exact absurd he.symm Bool.false_ne_true
  | call k message | send k memory | sender k stack | receiver | consumer =>
    simp only [step, h, Option.bind_eq_bind, Option.bind_some]

/-- What a run of an endpoint by itself shows, a run of the chat shows. -/
theorem act_shows {acts : List Atomic.Event} {t : Endpoint} (hacts : ∀ act ∈ acts, act.isArrive = false)
    (h : Shows (Endpoint.step net.host) Endpoint.shown (c.endpoint side) acts t) :
    Shows (step net) shown c (acts.map (.act side)) {
      endpoint := Function.update c.endpoint side t
      inFlight := Function.update c.inFlight side.other
        (c.inFlight side.other ++ outgoing (net.address side.other) (c.endpoint side) t) } := by
  obtain ⟨evs, hrun, rfl⟩ := h
  induction evs generalizing c with
  | nil =>
    obtain rfl := Option.some.inj hrun
    refine (Shows.refl c).of_eq ?_
    simp only [outgoing, List.drop_length, List.filter_nil, List.map_nil, List.append_nil,
      Function.update_eq_self]
  | cons e evs ih =>
    obtain ⟨s, hs, ht⟩ := run_cons_eq_some.mp hrun
    rw [trace_cons hs] at hacts ⊢
    obtain ⟨hshown, hrest⟩ := List.forall_mem_append.mp hacts
    have he : e.isArrive = false := by
      rcases shown_cases (c.endpoint side) e with ⟨-, he⟩ | ⟨act, hact, he⟩
      · exact he
      · exact he.symm.trans (hshown act (hact ▸ List.mem_singleton_self act))
    obtain ⟨sent, hsent⟩ := sent_append (run_single hs)
    obtain ⟨sent', hsent'⟩ := sent_append ht
    let c' : Chat := {
      endpoint := Function.update c.endpoint side s
      inFlight := Function.update c.inFlight side.other
        (c.inFlight side.other ++ outgoing (net.address side.other) (c.endpoint side) s) }
    have hself : c'.endpoint side = s := Function.update_self ..
    rw [List.map_append]
    have hshows := ih (c := c') (hself.symm ▸ ht) (hself.symm ▸ hrest)
    rw [hself] at hshows
    refine (Shows.cons (act_step he hs) hshows).of_eq ?_
    rw [outgoing_append _ hsent hsent']
    simp only [c', Function.update_idem, Function.update_self, List.append_assoc]

end Chat

namespace AtomicChat

variable {net : Network} {isClient : Side → Bool} {c c' : AtomicChat}

theorem atomic_chat (isClient : Side → Bool) (c : AtomicChat) : (c.chat isClient).atomic = c := by
  simp only [chat, Chat.atomic, Atomic.atomic_endpoint]

/-- The endpoint of a side is another one. -/
theorem chat_update (isClient : Side → Bool) (c : AtomicChat) (side : Side) (a : Atomic)
    (inFlight : Side → List (Vector UInt8 LDP_PACKET_SIZE)) :
    chat isClient { endpoint := Function.update c.endpoint side a, inFlight } =
      { endpoint := Function.update (c.chat isClient).endpoint side (a.endpoint (isClient side)), inFlight } := by
  simp only [chat, Chat.mk.injEq, and_true]
  exact funext fun x => Function.apply_update (fun x => Atomic.endpoint (isClient x)) c.endpoint side a x

/-- Every event of the atomic chat is shown by the chat that represents it. -/
theorem step_shows {act : Event} (hi : (c.chat isClient).Sound) (h : step net c act = some c') :
    Shows (Chat.step net) Chat.shown (c.chat isClient) [act] (c'.chat isClient) := by
  cases act with
  | act side act =>
    obtain ⟨ha, a, hs, rfl⟩ := act_eq h
    refine (Chat.act_shows (c := c.chat isClient) (fun x hx => ?_) (Atomic.step_shows (hi side) hs)).of_eq ?_
    · rw [List.mem_singleton.mp hx, ha]
    · rw [chat_update, ← Chat.outgoing_atomic]
      simp only [Atomic.atomic_endpoint, chat]
  | deliver side i buf =>
    obtain ⟨hi', d, a, hd, hs, rfl⟩ := deliver_eq h
    refine Shows.single (e := Chat.Event.deliver side i buf) ?_ rfl
    have hd' : ((c.chat isClient).inFlight side)[i]? = some d := hd
    have hs' : ((c.chat isClient).endpoint side).step net.host (.arrive (net.address side.other) d.toList buf) =
        some (a.endpoint (isClient side)) := Atomic.arrive_endpoint hs
    rw [chat_update]
    simp only [Chat.step, hi', ↓reduceIte, hd', hs', Option.bind_eq_bind, Option.bind_some]
    rfl
  | drop side i =>
    simp only [step] at h
    split at h
    · rename_i hf
      obtain rfl := Option.some.inj h
      refine Shows.single (e := Chat.Event.drop side i) ?_ rfl
      simp only [Chat.step, hf, ↓reduceIte]
      rfl
    · simp only [reduceCtorEq] at h
  | duplicate side i =>
    simp only [step] at h
    split at h
    · rename_i hf
      obtain ⟨d, hd, h⟩ := Option.bind_eq_some_iff.mp h
      obtain rfl := Option.some.inj h
      have hd' : ((c.chat isClient).inFlight side)[i]? = some d := hd
      refine Shows.single (e := Chat.Event.duplicate side i) ?_ rfl
      simp only [Chat.step, hf, ↓reduceIte, hd', Option.bind_eq_bind, Option.bind_some]
      rfl
    · simp only [reduceCtorEq] at h

end AtomicChat

namespace Chat

/-- A chat implements the atomic one. -/
def implementation (net : Network) (isClient : Side → Bool) :
    Implementation (Chat.step net) (AtomicChat.step net) where
  view := atomic
  shown := shown
  Inv := Sound
  inv_step := fun hi h => hi.step h
  sim := fun hi h => step_atomic hi h
  represent := AtomicChat.chat isClient
  view_represent := AtomicChat.atomic_chat isClient
  realize := fun hi h => AtomicChat.step_shows hi h

variable {net : Network} {party : Side → Party}

/-- The chat that two `Chatter`s begin shows exactly the runs of the chat between two atomic
endpoints over the same network: whatever the schedules of the threads on the two sides and whatever
the network does, what can be seen of the chat is what can be seen of the atomic one. -/
theorem chat_atomic_iff {acts : List AtomicChat.Event} {a : AtomicChat} :
    (∃ c, Shows (step net) shown (start party) acts c ∧ c.atomic = a) ↔
      run (AtomicChat.step net)
        (.start (fun side => if (party side).isClient then (party side).resolved else (party side).memory)
          fun side => (party side).callers) acts = some a := by
  have hatomic : (start party).atomic = .start
      (fun side => if (party side).isClient then (party side).resolved else (party side).memory)
      fun side => (party side).callers := by
    simp only [atomic, start, AtomicChat.start, Endpoint.chatter_atomic]
  have hchat : ((start party).atomic).chat (fun side => (party side).isClient) = start party := by
    simp only [atomic, start, AtomicChat.chat, Endpoint.endpoint_chatter]
  rw [← hatomic]
  exact (implementation net fun side => (party side).isClient).shows_iff (fun _ => Endpoint.chatter_sound) hchat

end Chat

end Ldp
