import Ldp.Proof.Deadlock
import Ldp.Proof.MessageQueue
import Ldp.Proof.Work
import Mathlib.Algebra.BigOperators.Group.List.Basic

/-!
# An endpoint finishes its work

Once nothing is called and nothing arrives any more, the threads of an endpoint do what is
left and come to rest, in whatever order they run: there are at most as many steps as there
is work (`own_length_le`), exactly as many if no loop index overflows (`own_length_eq`), and
the threads are at rest exactly when there is nothing left for any of them to do
(`atRest_iff`). By then all that was pushed is sent, and all that was accepted is delivered
(`comes_to_rest`).
-/

namespace Ldp

open Framework Framework.BoundedBuffer

theorem Pushed.index_le {message : List UInt8} {i : Nat} {packets : List LDPPacket}
    (h : Pushed message i packets) : i ≤ message.length + 8 := by
  cases h with
  | start => exact Nat.zero_le _
  | push _ hle _ => omega

namespace Endpoint

/-- Every thread is at the wait it begins with, or past an overflow, and the queues are empty. -/
structure Finished (s : Endpoint) : Prop where
  callers : ∀ pc ∈ s.callers, pc.partWay = false
  senders : ∀ pc ∈ s.senders, pc = .wait
  window : s.senderWindow = []
  receiver : s.receiver = .listening
  consumer : s.consumer = .wait
  queue : s.receivedMessageQueue = []

variable {host : ByteOrder} {s s' t : Endpoint} {k : Nat}

/-! ## Counting the steps -/

theorem own_length_le {own : List Event} (hown : ∀ e ∈ own, e.isOwn = true)
    (h : run (step host) s own = some t) : own.length + t.work ≤ s.work :=
  length_add_work_le_of (fun he hs => (own_work he hs).1) hown h

/-- A step of a thread neither calls nor receives anything. -/
theorem own_history {e : Event} (he : e.isOwn = true) (h : s.step host e = some s') :
    s'.called = s.called ∧ s'.received = s.received := by
  cases e with
  | call k message | arrive source datagram buf => exact absurd he Bool.false_ne_true
  | send k memory =>
    obtain ⟨pc, hk, h⟩ := Option.bind_eq_some_iff.mp h
    obtain ⟨_, _, _, _, _, _, rfl⟩ := send_eq h
    exact ⟨rfl, rfl⟩
  | sender k stack | receiver | consumer =>
    exact ⟨(step_callers h rfl).2.1, (step_received h rfl).1⟩

theorem own_run_history {own : List Event} (hown : ∀ e ∈ own, e.isOwn = true)
    (h : run (step host) s own = some t) : t.called = s.called ∧ t.received = s.received := by
  induction own generalizing s with
  | nil =>
    obtain rfl := Option.some.inj h
    exact ⟨rfl, rfl⟩
  | cons e own ih =>
    obtain ⟨s', hs', ht⟩ := run_cons_eq_some.mp h
    obtain ⟨hc, hr⟩ := own_history (hown e List.mem_cons_self) hs'
    obtain ⟨hc', hr'⟩ := ih (fun x hx => hown x (List.mem_cons_of_mem _ hx)) ht
    exact ⟨hc'.trans hc, hr'.trans hr⟩

/-- No message called is so long that the loop index of `send` overflows on it. -/
def Short (s : Endpoint) : Prop := ∀ x ∈ s.called, x.2.length + 8 ≤ INT_MAX

theorem Short.index_le {message : List UInt8} {i : Nat} {returned : List (List UInt8)}
    {part : List LDPPacket} (hs : s.Short) (hcalled : s.calledBy k = returned ++ [message])
    (hpart : Pushed message i part) : i ≤ INT_MAX := by
  have hm : message ∈ s.calledBy k := hcalled ▸ List.mem_append_right _ (List.mem_singleton.mpr rfl)
  obtain ⟨x, hx, rfl⟩ := List.mem_map.mp hm
  exact hpart.index_le.trans (hs x (List.mem_filter.mp hx).1)

theorem overflows_eq_false (hi : s.CallersProgress) (hs : s.Short) :
    ∀ pc ∈ s.callers, pc.overflows = false := by
  intro pc hpc
  obtain ⟨k, hk⟩ := List.getElem?_of_mem hpc
  cases pc with
  | next message i =>
    obtain ⟨-, returned, groups, part, hcalled, -, -, hpart⟩ := hi k _ hk
    exact decide_eq_false (Nat.not_lt.mpr (hs.index_le hcalled hpart))
  | idle | test message i | slot message i | locked message i | pushed message i | unlocked message i
  | overflow message i => rfl

/-- Without overflows the threads take exactly the steps that are left, in any order. -/
theorem own_length_eq {own : List Event} (hi : s.CallersProgress) (hshort : s.Short)
    (hown : ∀ e ∈ own, e.isOwn = true) (h : run (step host) s own = some t) :
    own.length + t.work = s.work :=
  length_add_work_eq (I := fun s => s.CallersProgress ∧ s.Short)
    (fun ⟨hi, hs⟩ he hst => by
      refine ⟨⟨step_progress hi hst, ?_⟩, (own_work he hst).2.2 (overflows_eq_false hi hs)⟩
      rw [Short, (own_history he hst).1]
      exact hs) ⟨hi, hshort⟩ hown h

/-- A caller is past an overflow only where the index has passed the largest `int`. -/
def Overflowed (s : Endpoint) : Prop :=
  ∀ (k : Nat) (message : List UInt8) (i : Nat), s.callers[k]? = some (.overflow message i) → INT_MAX < i + 8

/-- A caller that moves to another place than past an overflow. -/
theorem Overflowed.set {pc' : SendPc} (hi : s.Overflowed) (hcallers : s'.callers = s.callers.set k pc')
    (hpc : ∀ message i, pc' = .overflow message i → INT_MAX < i + 8) : s'.Overflowed := by
  intro j message i hj
  rw [hcallers, List.getElem?_set] at hj
  split at hj
  · split at hj
    · exact hpc message i (Option.some.inj hj)
    · simp only [reduceCtorEq] at hj
  · exact hi j message i hj

theorem step_overflowed {e : Event} (hi : s.Overflowed) (h : s.step host e = some s') : s'.Overflowed := by
  cases e with
  | call k message =>
    obtain ⟨pc, hk, h⟩ := Option.bind_eq_some_iff.mp h
    obtain ⟨-, rfl⟩ := call_eq h
    exact hi.set rfl (by simp)
  | send k memory =>
    obtain ⟨pc, hk, h⟩ := Option.bind_eq_some_iff.mp h
    cases pc with
    | idle | overflow message i => simp only [send, reduceCtorEq] at h
    | test message i =>
      simp only [send] at h
      split at h
      · obtain ⟨_, -, h⟩ := Option.bind_eq_some_iff.mp h
        obtain rfl := Option.some.inj h
        exact hi.set rfl (by simp)
      · obtain rfl := Option.some.inj h
        exact hi.set rfl (by simp)
    | slot message i | locked message i =>
      obtain ⟨_, -, h⟩ := Option.bind_eq_some_iff.mp h
      obtain rfl := Option.some.inj h
      exact hi.set rfl (by simp)
    | pushed message i | unlocked message i =>
      obtain rfl := Option.some.inj h
      exact hi.set rfl (by simp)
    | next message i =>
      obtain rfl := Option.some.inj h
      refine hi.set rfl fun message' i' he => ?_
      split at he
      · simp only [reduceCtorEq] at he
      · obtain ⟨rfl, rfl⟩ := SendPc.overflow.inj he
        omega
  | sender k stack | arrive source datagram buf | receiver | consumer =>
    obtain ⟨hcallers, -⟩ := step_callers h rfl
    rwa [Overflowed, hcallers]

/-! ## Where the threads are at rest -/

variable {isClient : Bool} {memory resolved : Sockaddr} {callers : Nat} {evs : List Event}

/-- Where none of them can take a step, the callers and the senders are at the beginning of
a round, and the semaphore counts the window. -/
theorem senderSide_ready (h : run (step host) (chatter isClient memory resolved callers) evs = some s)
    (hrest : ¬ s.SenderSideCanStep host) :
    (∀ p ph, phaseOf s.window p = some ph → ph = .ready) ∧
      s.senderWindowFullSlotCount = s.senderWindow.length := by
  rcases (window_inv h).enabled_or_ready (window_threads h) with ⟨q, ph, hq, hb, hen⟩ | ⟨hready, hfull, -⟩
  · refine absurd ?_ hrest
    cases q with
    | producer k =>
      obtain ⟨pc, hk, rfl⟩ := exists_caller hq
      exact senderSide_of_caller (callers_progress h) hk (SendPc.partWay_of_busy hb) hen
    | consumer k =>
      obtain ⟨pc, hk, rfl⟩ := exists_sender hq
      exact senderSide_of_sender hk hen
  · exact ⟨hready, hfull⟩

/-- Where neither can take a step, so are the receiver and the consumer. -/
theorem receiverSide_ready (h : run (step host) (chatter isClient memory resolved callers) evs = some s)
    (hrest : ¬ s.ReceiverSideCanStep host) :
    s.consumer = .wait ∧ s.receivedMessageQueueFullSlotCount = s.receivedMessageQueue.length := by
  rcases (queue_inv h).enabled_or_ready (queue_threads h) with ⟨q, ph, hq, hb, hen⟩ | ⟨hready, hfull, -⟩
  · refine absurd ?_ hrest
    cases q with
    | producer k =>
      obtain rfl : k = 0 := Nat.lt_one_iff.mp (List.getElem?_eq_some_iff.mp hq).1
      obtain rfl := Option.some.inj hq
      refine .inl (ldpPacketReceiver_enabled (fun hr => ?_) hen)
      rw [hr] at hb
      exact absurd hb Bool.false_ne_true
    | consumer k =>
      obtain rfl : k = 0 := Nat.lt_one_iff.mp (List.getElem?_eq_some_iff.mp hq).1
      obtain rfl := Option.some.inj hq
      exact .inr (messageConsumer_enabled hen)
  · have hph : s.consumer.phase = .ready := hready (.consumer 0) _ rfl
    refine ⟨?_, hfull⟩
    cases hc : s.consumer with
    | wait => rfl
    | deliver message => exact absurd (.inr (by rw [step, hc]; rfl)) hrest
    | slot | locked | popped message | unlocked message =>
      rw [hc] at hph
      cases hph

theorem not_senderSide_of_atRest (h : AtRest (step host) (·.isOwn = true) s) : ¬ s.SenderSideCanStep host := by
  rintro (⟨k, hk⟩ | ⟨k, hk⟩)
  · have hsome := hk blankPacket
    rw [h (.send k blankPacket) rfl] at hsome
    exact absurd hsome Bool.false_ne_true
  · have hsome := hk blankBuffer
    rw [h (.sender k blankBuffer) rfl] at hsome
    exact absurd hsome Bool.false_ne_true

theorem not_receiverSide_of_atRest (h : AtRest (step host) (·.isOwn = true) s) :
    ¬ s.ReceiverSideCanStep host := by
  rintro (hr | hc)
  · rw [h .receiver rfl] at hr
    exact absurd hr Bool.false_ne_true
  · rw [h .consumer rfl] at hc
    exact absurd hc Bool.false_ne_true

theorem finished_of_atRest (h : run (step host) (chatter isClient memory resolved callers) evs = some s)
    (hrest : AtRest (step host) (·.isOwn = true) s) : s.Finished := by
  have hsender := not_senderSide_of_atRest hrest
  have hreceiver := not_receiverSide_of_atRest hrest
  obtain ⟨hready, -⟩ := senderSide_ready h hsender
  obtain ⟨hconsumer, -⟩ := receiverSide_ready h hreceiver
  refine ⟨fun pc hpc => ?_, fun pc hpc => ?_, ?_, ?_, hconsumer, ?_⟩
  · obtain ⟨k, hk⟩ := List.getElem?_of_mem hpc
    exact Bool.eq_false_iff.mpr fun hp => hsender (senderSide_canStep h (.inr ⟨k, pc, hk, hp⟩))
  · obtain ⟨k, hk⟩ := List.getElem?_of_mem hpc
    have hph : pc.phase = .ready := hready (.consumer k) _ (by simp [phaseOf, window, hk])
    cases pc <;> first | rfl | cases hph
  · by_contra hne
    exact hsender (senderSide_canStep h (.inl hne))
  · by_contra hne
    exact hreceiver (receiverSide_canStep h (.inr hne))
  · by_contra hne
    exact hreceiver (receiverSide_canStep h (.inl hne))

/-- Then the semaphores count no filled slot. -/
theorem Finished.full (hf : s.Finished)
    (h : run (step host) (chatter isClient memory resolved callers) evs = some s) :
    s.senderWindowFullSlotCount = 0 ∧ s.receivedMessageQueueFullSlotCount = 0 := by
  constructor
  · have hfull := (window_inv h).full_eq fun p ph hp => ?_
    · simpa [Endpoint.window, hf.window] using hfull
    · cases p with
      | producer k =>
        obtain ⟨pc, hk, rfl⟩ := exists_caller hp
        have hpc := hf.callers pc (List.mem_of_getElem? hk)
        cases pc <;> first | rfl | cases hpc
      | consumer k =>
        obtain ⟨pc, hk, rfl⟩ := exists_sender hp
        rw [hf.senders pc (List.mem_of_getElem? hk)]
        rfl
  · have hfull := (queue_inv h).full_eq fun p ph hp => ?_
    · simpa [Endpoint.queue, hf.queue] using hfull
    · cases p with
      | producer k =>
        obtain rfl : k = 0 := Nat.lt_one_iff.mp (List.getElem?_eq_some_iff.mp hp).1
        obtain rfl := Option.some.inj hp
        rw [hf.receiver]
        rfl
      | consumer k =>
        obtain rfl : k = 0 := Nat.lt_one_iff.mp (List.getElem?_eq_some_iff.mp hp).1
        obtain rfl := Option.some.inj hp
        rw [hf.consumer]
        rfl

theorem atRest_of_finished (h : run (step host) (chatter isClient memory resolved callers) evs = some s)
    (hf : s.Finished) : AtRest (step host) (·.isOwn = true) s := by
  obtain ⟨hwindow, hqueue⟩ := hf.full h
  intro e he
  cases e with
  | call k message | arrive source datagram buf => exact absurd he Bool.false_ne_true
  | send k memory =>
    cases hk : s.callers[k]? with
    | none => rw [step, hk, Option.bind_none]
    | some pc =>
      have hpc := hf.callers pc (List.mem_of_getElem? hk)
      rw [step, hk, Option.bind_some]
      cases pc <;> first | rfl | cases hpc
  | sender k stack =>
    cases hk : s.senders[k]? with
    | none => rw [step, hk, Option.bind_none]
    | some pc =>
      obtain rfl := hf.senders pc (List.mem_of_getElem? hk)
      rw [step, hk, Option.bind_some, ldpPacketSender, hwindow]
      rfl
  | receiver =>
    rw [step, hf.receiver]
    rfl
  | consumer =>
    rw [step, hf.consumer, messageConsumer, hqueue]
    rfl

theorem overflowed (h : run (step host) (chatter isClient memory resolved callers) evs = some s) :
    s.Overflowed := by
  refine run_induction (I := Overflowed) (fun hi hs => step_overflowed hi hs) (fun k message i hk => ?_) h
  have hidle : SendPc.overflow message i = .idle := by
    cases isClient <;> exact List.eq_of_mem_replicate (List.mem_of_getElem? hk)
  simp only [reduceCtorEq] at hidle

/-- Where no message is too long, every call has returned then. -/
theorem Finished.idle (hf : s.Finished) (hshort : s.Short)
    (h : run (step host) (chatter isClient memory resolved callers) evs = some s) :
    ∀ pc ∈ s.callers, pc = .idle := by
  intro pc hpc
  have hp := hf.callers pc hpc
  obtain ⟨k, hk⟩ := List.getElem?_of_mem hpc
  cases pc with
  | idle => rfl
  | overflow message i =>
    have hover := overflowed h k message i hk
    obtain ⟨-, returned, groups, part, hcalled, -, -, hpart⟩ := callers_progress h k _ hk
    have hle := hshort.index_le hcalled hpart
    omega
  | test message i | slot message i | locked message i | pushed message i | unlocked message i
  | next message i => cases hp

/-- The threads are at rest exactly where there is nothing left to do. -/
theorem atRest_iff (h : run (step host) (chatter isClient memory resolved callers) evs = some s) :
    AtRest (step host) (·.isOwn = true) s ↔ s.Finished :=
  ⟨finished_of_atRest h, atRest_of_finished h⟩

/-- Then no work is left, what was pushed is sent, and what was accepted is delivered. -/
theorem Finished.work_eq (hf : s.Finished)
    (h : run (step host) (chatter isClient memory resolved callers) evs = some s) : s.work = 0 := by
  obtain ⟨hwindow, hqueue⟩ := hf.full h
  have hcallers : (s.callers.map SendPc.work).sum = 0 ∧ (s.callers.map SendPc.pending).sum = 0 := by
    constructor <;> refine List.sum_eq_zero (List.forall_mem_map.mpr fun pc hpc => ?_) <;>
      have hp := hf.callers pc hpc <;> cases pc <;> first | rfl | cases hp
  have hsenders : (s.senders.map SenderPc.work).sum = 0 :=
    List.sum_eq_zero (List.forall_mem_map.mpr fun pc hpc => by rw [hf.senders pc hpc]; rfl)
  simp only [work, senderWork, receiverWork, hcallers, hsenders, hwindow, hqueue, hf.receiver, hf.consumer,
    ReceiverPc.work, ConsumerPc.work]

theorem Finished.sent_eq (hf : s.Finished)
    (h : run (step host) (chatter isClient memory resolved callers) evs = some s) :
    s.sent.map (·.packet) = s.pushed.map Prod.snd := by
  have ho := (window_inv h).order
  simpa only [Endpoint.window, hf.window, List.append_nil] using ho

theorem Finished.delivered_eq (hf : s.Finished)
    (h : run (step host) (chatter isClient memory resolved callers) evs = some s) :
    s.delivered = s.accepted := by
  have ho := delivery_order h
  simpa only [hf.consumer, hf.queue, hf.receiver, ConsumerPc.held, ReceiverPc.held, List.append_nil] using ho

/-- From every reachable state the threads of an endpoint, left to themselves, come to rest
whichever of them goes first: no run of theirs has more steps than there is work, all of
them have as many when they end if no message is too long for the loop index, and they end
where nothing is left to do, with everything pushed sent and everything accepted delivered. -/
theorem comes_to_rest (h : run (step host) (chatter isClient memory resolved callers) evs = some s) :
    (∃ own t, (∀ e ∈ own, e.isOwn = true) ∧ run (step host) s own = some t ∧ t.Finished) ∧
    ∀ own t, (∀ e ∈ own, e.isOwn = true) → run (step host) s own = some t →
      own.length + t.work ≤ s.work ∧
      (AtRest (step host) (·.isOwn = true) t ↔ t.Finished) ∧
      (t.Finished → (s.Short → own.length = s.work) ∧ t.sent.map (·.packet) = t.pushed.map Prod.snd ∧
        t.called = s.called ∧ t.delivered = s.accepted) := by
  constructor
  · have hstep : ∀ {s e s'}, e.isOwn = true → step host s e = some s' → s'.work + 1 ≤ s.work :=
      fun he hs => (own_work he hs).1
    obtain ⟨own, t, hown, ht, hrest⟩ := exists_run_to_rest hstep s
    exact ⟨own, t, hown, ht, finished_of_atRest (run_append_of h ht) hrest⟩
  · intro own t hown ht
    have hreach := run_append_of h ht
    obtain ⟨hcalled, hreceived⟩ := own_run_history hown ht
    refine ⟨own_length_le hown ht, atRest_iff hreach, fun hf => ⟨fun hshort => ?_, hf.sent_eq hreach, hcalled, ?_⟩⟩
    · have heq := own_length_eq (callers_progress h) hshort hown ht
      rwa [hf.work_eq hreach] at heq
    · rw [hf.delivered_eq hreach, accepted, accepted, hreceived]

/-- Two callers, in the middle of a message each: their threads have a dozen steps to go,
after which both packets are sent. -/
theorem comes_to_rest_twoCallers :
    ∃ s own t, run (step .little) (chatter true peerAddress peerAddress 2) twoCallers = some s ∧
      s.work = 12 ∧ run (step .little) s own = some t ∧ own.length = s.work ∧
        t.sent.map (·.packet) = t.pushed.map Prod.snd := by
  obtain ⟨s, h, hw⟩ : ∃ s, run (step .little) (chatter true peerAddress peerAddress 2) twoCallers = some s ∧
      s.work = 12 ∧ s.Short := ⟨_, rfl, by decide, by unfold Short; decide⟩
  obtain ⟨⟨own, t, hown, ht, hf⟩, hall⟩ := comes_to_rest h
  obtain ⟨-, -, hend⟩ := hall own t hown ht
  obtain ⟨hlen, hsent, -⟩ := hend hf
  exact ⟨s, own, t, h, hw.1, ht, hlen hw.2, hsent⟩

end Endpoint
end Ldp
