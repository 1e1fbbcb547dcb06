import Ldp.Proof.Queues

/-!
# Where a server sends

A server learns the address of its peer from the datagrams that arrive, but its
threads of `ldpPacketSender` do not wait for one. What it sends goes to the source
of a datagram that arrived earlier exactly in the runs in which no packet is sent
before the first arrival, such as those in which `send` is not called before it
(`addressed_iff`).
-/

namespace Ldp.Endpoint

open Framework

/-- Everything sent so far went to the source of a datagram received before, and
before the first of them nothing has left the window. -/
structure Addressed (s : Endpoint) : Prop where
  dest : ∀ x ∈ s.sent, ∃ y ∈ s.received, y.1 = x.dest
  unsent : s.received = [] → s.sent = [] ∧ s.senderWindow = s.pushed.map Prod.snd

/-- A thread of `ldpPacketSender` sends when a datagram has arrived. -/
def AfterArrival (s : Endpoint) : Event → Prop
  | .sender k _ => s.senders[k]? = some .locked → s.received ≠ []
  | _ => True

/-- `send` is called when a datagram has arrived. -/
def CalledAfterArrival (s : Endpoint) : Event → Prop
  | .call _ _ => s.received ≠ []
  | _ => True

/-- What was received is where `chateeSockaddr` comes from, and `sent` goes to. -/
structure Learned (s : Endpoint) : Prop where
  chatee : s.received ≠ [] → ∃ y ∈ s.received, y.1 = s.chateeSockaddr
  dest : ∀ x ∈ s.sent, ∃ y ∈ s.received, y.1 = x.dest

variable {host : ByteOrder} {s s' t : Endpoint}

theorem step_learned {e : Event} (hi : s.Learned) (hok : s.AfterArrival e) (h : s.step host e = some s') :
    s'.Learned := by
  cases harr : e.isArrive with
  | true =>
    obtain ⟨source, datagram, buf, rfl⟩ := Event.isArrive_iff.mp harr
    obtain ⟨-, rfl⟩ := arrive_eq.mp h
    refine ⟨fun _ => ⟨_, List.mem_append_right _ (List.mem_singleton.mpr rfl), rfl⟩, fun x hx => ?_⟩
    obtain ⟨y, hy, he⟩ := hi.dest x hx
    exact ⟨y, List.mem_append_left _ hy, he⟩
  | false =>
    obtain ⟨hr, hc⟩ := step_received h harr
    refine ⟨by rw [hr, hc]; exact hi.chatee, fun x hx => ?_⟩
    rw [hr]
    rcases step_sent h with hs | ⟨k, stack, packet, rfl, hk, hs⟩
    · rw [hs] at hx
      exact hi.dest x hx
    · rw [hs] at hx
      rcases List.mem_append.mp hx with hx | hx
      · exact hi.dest x hx
      · obtain rfl := List.mem_singleton.mp hx
        exact hi.chatee (hok hk)

variable {isClient : Bool} {memory resolved : Sockaddr} {callers : Nat} {evs : List Event}

theorem Learned.addressed (hl : s.Learned)
    (h : run (step host) (chatter isClient memory resolved callers) evs = some s) : s.Addressed := by
  refine ⟨hl.dest, fun hr => ?_⟩
  have hsent : s.sent = [] := List.eq_nil_iff_forall_not_mem.mpr fun x hx => by
    obtain ⟨y, hy, -⟩ := hl.dest x hx
    exact List.not_mem_nil (hr ▸ hy)
  have ho := (window_inv h).order
  simp only [window, hsent, List.map_nil, List.nil_append] at ho
  exact ⟨hsent, ho⟩

/-- Before anything was received, nothing was called or pushed. -/
structure Quiet (s : Endpoint) : Prop where
  callers : s.received = [] → ∀ pc ∈ s.callers, pc = .idle
  pushed : s.received = [] → s.pushed = []

theorem step_quiet {e : Event} (hi : s.Quiet) (hok : s.CalledAfterArrival e) (h : s.step host e = some s') :
    s'.Quiet := by
  cases e with
  | call k message =>
    obtain ⟨pc, -, h⟩ := Option.bind_eq_some_iff.mp h
    obtain ⟨-, rfl⟩ := call_eq h
    exact ⟨fun hr => absurd hr hok, fun hr => absurd hr hok⟩
  | send k memory =>
    obtain ⟨pc, hk, h⟩ := Option.bind_eq_some_iff.mp h
    have hr : s.received ≠ [] := fun hr => by
      obtain rfl := hi.callers hr pc (List.mem_of_getElem? hk)
      simp only [send, reduceCtorEq] at h
    obtain ⟨_, _, _, _, _, _, rfl⟩ := send_eq h
    exact ⟨fun hr' => absurd hr' hr, fun hr' => absurd hr' hr⟩
  | arrive source datagram buf =>
    obtain ⟨-, rfl⟩ := arrive_eq.mp h
    exact ⟨fun hr => absurd hr (by simp), fun hr => absurd hr (by simp)⟩
  | sender k stack | receiver | consumer =>
    obtain ⟨hcallers, -, hpushed⟩ := step_callers h rfl
    obtain ⟨hr, -⟩ := step_received h rfl
    exact ⟨hr ▸ hcallers ▸ hi.callers, hr ▸ hpushed ▸ hi.pushed⟩

theorem chatter_quiet : (chatter isClient memory resolved callers).Quiet := by
  refine ⟨fun _ pc hpc => ?_, fun _ => by cases isClient <;> rfl⟩
  cases isClient <;> exact List.eq_of_mem_replicate hpc

/-- Where `send` is called only after an arrival, so are packets sent: before it, the
window is empty, and no thread of `ldpPacketSender` is past its wait. -/
theorem afterArrival_of_calledAfterArrival
    (hok : AllSteps (step host) CalledAfterArrival (chatter isClient memory resolved callers) evs) :
    AllSteps (step host) AfterArrival (chatter isClient memory resolved callers) evs := by
  refine allSteps_iff.mpr fun before e after s he hs => ?_
  cases e with
  | call k message | send k memory | arrive source datagram buf | receiver | consumer => trivial
  | sender k stack =>
    intro hk hr
    rw [he] at hok
    have hq : s.Quiet := run_induction_of (I := Quiet) (fun hi ho hst => step_quiet hi ho hst) chatter_quiet
      (allSteps_append.mp hok).1 hs
    have hw := window_inv hs
    have ho := hw.order
    simp only [window, hq.pushed hr, List.map_nil, List.append_eq_nil_iff] at ho
    exact hw.items_ne_nil (k := k) (by simp [window, hk, SenderPc.phase]) ho.2

/-- A server sends only to where datagrams have come from, all along a run, exactly
if no packet is sent in the run before the first datagram has arrived; and so
whenever `send` is not called before that. -/
theorem addressed_iff (h : run (step host) (chatter false memory resolved callers) evs = some t) :
    ((∀ before after s, evs = before ++ after →
      run (step host) (chatter false memory resolved callers) before = some s → s.Addressed) ↔
    AllSteps (step host) AfterArrival (chatter false memory resolved callers) evs) ∧
    (AllSteps (step host) CalledAfterArrival (chatter false memory resolved callers) evs →
      AllSteps (step host) AfterArrival (chatter false memory resolved callers) evs) := by
  refine ⟨⟨fun hall => allSteps_iff.mpr fun before e after s he hs => ?_, fun hok before after s he hs => ?_⟩,
    afterArrival_of_calledAfterArrival⟩
  · cases e with
    | call k message | send k memory | arrive source datagram buf | receiver | consumer => trivial
    | sender k stack =>
      intro hk hr
      -- the step sends, and after it there is still nothing received
      rw [he, run_append, hs, Option.bind_some] at h
      obtain ⟨s', hs', -⟩ := run_cons_eq_some.mp h
      have hrun : run (step host) (chatter false memory resolved callers) (before ++ [.sender k stack]) =
          some s' := by
        rw [run_append, hs, Option.bind_some, run_cons, hs']
        rfl
      have haddr := hall _ after s' (by rw [he, List.append_assoc, List.singleton_append]) hrun
      obtain ⟨pc, hk', hs'⟩ := Option.bind_eq_some_iff.mp hs'
      obtain rfl := Option.some.inj (hk.symm.trans hk')
      obtain ⟨_, _, _, _, _, _, rfl, ⟨hne, -⟩ | ⟨-, packet, rfl⟩⟩ := ldpPacketSender_eq hs'
      · exact hne rfl
      · exact absurd (haddr.unsent hr).1 (by simp)
  · rw [he] at hok
    have hl : s.Learned := run_induction_of (I := Learned) (fun hi ho hst => step_learned hi ho hst)
      ⟨fun hne => absurd rfl hne, fun x hx => absurd hx List.not_mem_nil⟩ (allSteps_append.mp hok).1 hs
    exact hl.addressed hs

/-- A server is sent the message `hi`, and then a line is typed. -/
def typedAfterArrival : List Event :=
  [.arrive peerAddress hiDatagram blankBuffer, .call 0 [104, 105],
    .send 0 blankPacket, .send 0 blankPacket, .send 0 blankPacket, .send 0 blankPacket,
    .send 0 blankPacket, .sender 0 blankBuffer, .sender 0 blankBuffer, .sender 0 blankBuffer]

theorem addressed_iff_typedAfterArrival :
    ((∀ before after s, typedAfterArrival = before ++ after →
      run (step .little) (chatter false garbageAddress garbageAddress 1) before = some s → s.Addressed) ↔
    AllSteps (step .little) AfterArrival (chatter false garbageAddress garbageAddress 1) typedAfterArrival) ∧
    (AllSteps (step .little) CalledAfterArrival (chatter false garbageAddress garbageAddress 1)
        typedAfterArrival →
      AllSteps (step .little) AfterArrival (chatter false garbageAddress garbageAddress 1)
        typedAfterArrival) :=
  addressed_iff (show run (step .little) (chatter false garbageAddress garbageAddress 1) typedAfterArrival = _
    from rfl)

/-- A line typed before any datagram has arrived is sent to what the memory held. -/
theorem sent_before_arrival :
    ∃ s, run (step .little) (chatter false garbageAddress garbageAddress 1) typedAfterArrival.tail = some s ∧
      s.received = [] ∧ s.sent.map (·.dest) = [garbageAddress] ∧ ¬ s.Addressed := by
  refine ⟨_, rfl, by decide, by decide, fun h => ?_⟩
  exact absurd (h.unsent (by decide)).1 (by decide)

end Ldp.Endpoint
