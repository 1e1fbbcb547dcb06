import Ldp.Proof.Datagrams

/-!
# The effect of corrupted datagrams

A corrupted datagram is dropped, but not before `udpReceive` has made its source
the address of the peer, and has left its bytes in the buffer that completes a
shorter datagram after it. So the corrupted datagrams of a run can be taken out of
it without any effect exactly if each comes from the address that the endpoint has
at the time, and those that are accepted after the first of them fill the buffer
(`run_without_corrupted`).
-/

namespace Ldp.Endpoint

open Framework

/-- An arrival of a datagram that `decode` reports as corrupted. -/
def corrupted (host : ByteOrder) : Event → Bool
  | .arrive _ datagram buf => (arrival host datagram buf).isCorrupted
  | _ => false

/-- A corrupted datagram comes from the address that the endpoint has. -/
def FromPeer (host : ByteOrder) (s : Endpoint) : Event → Prop
  | .arrive source datagram buf => (arrival host datagram buf).isCorrupted = true → source = s.chateeSockaddr
  | _ => True

/-- A corrupted datagram leaves the message queue, its semaphores and the address as
they were. -/
def Harmless (host : ByteOrder) (s : Endpoint) (e : Event) : Prop :=
  corrupted host e = true → ∀ s', s.step host e = some s' →
    s'.receivedMessageQueue = s.receivedMessageQueue ∧
    s'.receivedMessageQueueFullSlotCount = s.receivedMessageQueueFullSlotCount ∧
    s'.receivedMessageQueueEmptySlotCount = s.receivedMessageQueueEmptySlotCount ∧
    s'.chateeSockaddr = s.chateeSockaddr

/-- A datagram that leaves nothing of what the buffer held. -/
def Event.fills : Event → Prop
  | .arrive _ datagram _ => LDP_PACKET_SIZE ≤ datagram.length
  | _ => True

/-- From the first corrupted datagram on, those that are accepted fill the buffer. -/
def Whole (host : ByteOrder) (evs : List Event) : Prop :=
  ∀ e ∈ evs.dropWhile (!corrupted host ·), corrupted host e = false → e.fills

/-- An event without what the buffer held. -/
def Event.withoutBuffer : Event → Event
  | .arrive source datagram _ => .arrive source datagram blankBuffer
  | e => e

/-- `kept` is `evs` without the corrupted datagrams. Up to the first of these the buffer
held what it did; after it, without their bytes, it may have held anything. -/
def Without (host : ByteOrder) (evs kept : List Event) : Prop :=
  ∃ later, kept = evs.takeWhile (!corrupted host ·) ++ later ∧
    later.map Event.withoutBuffer =
      ((evs.dropWhile (!corrupted host ·)).filter (!corrupted host ·)).map Event.withoutBuffer

/-- The corrupted datagrams among `evs` have no effect, from `s`: neither each by itself,
nor on what is accepted and delivered, the message queue, what is sent, and where to. -/
structure WithoutEffect (host : ByteOrder) (s : Endpoint) (evs : List Event) : Prop where
  harmless : AllSteps (step host) (Harmless host) s evs
  same : ∀ t kept, run (step host) s evs = some t → Without host evs kept →
    ∃ t', run (step host) s kept = some t' ∧ t'.accepted = t.accepted ∧ t'.delivered = t.delivered ∧
      t'.queue = t.queue ∧ t'.sent = t.sent ∧ t'.chateeSockaddr = t.chateeSockaddr

/-- An endpoint without its history of corrupted arrivals and, unless they are kept,
without the address of the peer and the history of what was sent to it. -/
def mask (keep : Bool) (s : Endpoint) : Endpoint :=
  { s with
    received := s.received.filter (!·.2.isCorrupted)
    chateeSockaddr := if keep then s.chateeSockaddr else ⟨0, Vector.replicate 14 0⟩
    sent := if keep then s.sent else [] }

variable {host : ByteOrder} {s s' t u : Endpoint} {keep : Bool}

/-! ## What is masked does not matter to the rest -/

theorem mask_mask (s : Endpoint) : mask keep (mask keep s) = mask keep s := by
  cases keep <;> simp [mask]

@[simp] theorem accepted_mask (s : Endpoint) : (mask keep s).accepted = s.accepted := by
  simp [accepted, mask]

theorem send_mask (k : Nat) (memory : LDPPacket) (pc : SendPc) :
    ((mask keep s).send k memory pc).map (mask keep) = (s.send k memory pc).map (mask keep) := by
  by_cases hpc : ∃ message i, pc = .locked message i
  · obtain ⟨message, i, rfl⟩ := hpc
    simp only [send]
    cases LDPPacket.ofMessage memory ((cStr message).drop i) (message.length - i + 1) <;> cases keep <;>
      simp [mask]
  · exact (send_framed memory fun message i h => hpc ⟨message, i, h⟩).map_comm (fun _ _ => rfl) mask_mask s

theorem ldpPacketSender_mask (k : Nat) (stack : Vector UInt8 LDP_PACKET_SIZE) (pc : SenderPc) :
    ((mask keep s).ldpPacketSender host k stack pc).map (mask keep) =
      (s.ldpPacketSender host k stack pc).map (mask keep) := by
  by_cases hpc : pc = .locked
  · subst hpc
    simp only [ldpPacketSender]
    rw [show (mask keep s).senderWindow = s.senderWindow from rfl]
    cases s.senderWindow with
    | nil => rfl
    | cons packet window =>
      simp only [udpSend, LDPPacket.encode_eq, Option.bind_eq_bind, Option.bind_some]
      cases keep <;> simp [mask]
  · exact (ldpPacketSender_framed stack hpc).map_comm (fun _ _ => rfl) mask_mask s

theorem arrive_mask (source : Sockaddr) (datagram : List UInt8) (buf : Vector UInt8 LDP_PACKET_SIZE)
    (pc : ReceiverPc) :
    ((mask keep s).arrive host source datagram buf pc).map (mask keep) =
      (s.arrive host source datagram buf pc).map (mask keep) := by
  cases pc with
  | listening =>
    simp only [arrive]
    rw [show (mask keep s).isListening = s.isListening from rfl]
    split
    · simp only [udpReceive, LDPPacket.decode_eq, Option.bind_eq_bind, Option.bind_some]
      cases keep <;> simp [mask]
    · rfl
  | received packet | slot packet | locked packet | pushed packet | unlocked packet => rfl

/-- A step leads to the same, up to what is masked, whatever that is. -/
theorem step_mask (e : Event) :
    ((mask keep s).step host e).map (mask keep) = (s.step host e).map (mask keep) := by
  cases e with
  | call k message =>
    simp only [step]
    rw [show (mask keep s).callers = s.callers from rfl]
    cases s.callers[k]? with
    | none => rfl
    | some pc => exact (call_framed k message pc).map_comm (fun _ _ => rfl) mask_mask s
  | send k memory =>
    simp only [step]
    rw [show (mask keep s).callers = s.callers from rfl]
    cases s.callers[k]? with
    | none => rfl
    | some pc => exact send_mask k memory pc
  | sender k stack =>
    simp only [step]
    rw [show (mask keep s).senders = s.senders from rfl]
    cases s.senders[k]? with
    | none => rfl
    | some pc => exact ldpPacketSender_mask k stack pc
  | arrive source datagram buf => exact arrive_mask source datagram buf _
  | receiver => exact ldpPacketReceiver_framed.map_comm (fun _ _ => rfl) mask_mask s
  | consumer => exact messageConsumer_framed.map_comm (fun _ _ => rfl) mask_mask s

/-- Of two endpoints that are the same up to what is masked, one can do what the other does. -/
theorem step_of_mask_eq {e : Event} (hm : mask keep s = mask keep u) (h : s.step host e = some s') :
    ∃ u', u.step host e = some u' ∧ mask keep s' = mask keep u' := by
  have hmap : (u.step host e).map (mask keep) = some (mask keep s') := by
    rw [← step_mask, ← hm, step_mask, h]
    rfl
  obtain ⟨u', hu, he⟩ := Option.map_eq_some_iff.mp hmap
  exact ⟨u', hu, he.symm⟩

/-! ## Steps and runs -/

/-- A corrupted datagram changes nothing but what is masked, and not the address
either if it comes from there. -/
theorem mask_corrupted {e : Event} (hc : corrupted host e = true) (h : s.step host e = some s')
    (hpeer : keep = true → FromPeer host s e) : mask keep s' = mask keep s := by
  cases e with
  | call k message | send k memory | sender k stack | receiver | consumer =>
    exact absurd hc Bool.false_ne_true
  | arrive source datagram buf =>
    obtain ⟨⟨hr, -⟩, rfl⟩ := arrive_eq.mp h
    simp only [corrupted] at hc
    cases keep with
    | false => simp [mask, hc, hr]
    | true => simp [mask, hc, hr, hpeer rfl hc]

/-- A run without its corrupted datagrams, from an endpoint that is the same up to
what is masked. -/
theorem run_mask (keep : Bool) {evs : List Event} (hm : mask keep s = mask keep u)
    (hpeer : keep = true → AllSteps (step host) (FromPeer host) s evs)
    (h : run (step host) s evs = some t) :
    ∃ t', run (step host) u (evs.filter (!corrupted host ·)) = some t' ∧ mask keep t = mask keep t' := by
  induction evs generalizing s u with
  | nil =>
    obtain rfl := Option.some.inj h
    exact ⟨u, rfl, hm⟩
  | cons e evs ih =>
    obtain ⟨s', hs, ht⟩ := run_cons_eq_some.mp h
    have hpeer' : keep = true → AllSteps (step host) (FromPeer host) s' evs := fun hk => (hpeer hk).2 s' hs
    by_cases hc : corrupted host e = true
    · rw [List.filter_cons_of_neg (by simp [hc])]
      exact ih ((mask_corrupted hc hs fun hk => (hpeer hk).1).trans hm) hpeer' ht
    · rw [List.filter_cons_of_pos (by simp [hc])]
      obtain ⟨u', hu, hm'⟩ := step_of_mask_eq hm hs
      obtain ⟨t', ht', hmt⟩ := ih hm' hpeer' ht
      exact ⟨t', run_cons_eq_some.mpr ⟨u', hu, ht'⟩, hmt⟩

/-- A corrupted datagram that can arrive is harmless exactly if it comes from the
address that the endpoint has. -/
theorem harmless_iff {e : Event} (h : s.step host e = some s') : Harmless host s e ↔ FromPeer host s e := by
  cases e with
  | call k message | send k memory | sender k stack | receiver | consumer =>
    exact iff_of_true (fun hc => absurd hc Bool.false_ne_true) trivial
  | arrive source datagram buf =>
    simp only [Harmless, FromPeer, corrupted, h, Option.some.injEq, forall_eq']
    obtain ⟨-, rfl⟩ := arrive_eq.mp h
    simp only [true_and]

/-! ## What the buffer held -/

/-- An event with the buffer as `recvfrom` leaves it. -/
def Event.seen : Event → Event
  | .arrive source datagram buf => .arrive source (recvfrom buf datagram).toList blankBuffer
  | e => e

theorem recvfrom_of_le {d : List UInt8} (h : LDP_PACKET_SIZE ≤ d.length)
    (buf buf' : Vector UInt8 LDP_PACKET_SIZE) : recvfrom buf d = recvfrom buf' d := by
  apply Vector.ext; intro i hi
  rw [recvfrom_getElem _ _ hi, recvfrom_getElem _ _ hi, List.getElem?_eq_getElem (by omega)]
  rfl

/-- A step depends on the buffer as `recvfrom` leaves it. -/
theorem step_seen (e : Event) : s.step host e.seen = s.step host e := by
  cases e with
  | call k message | send k memory | sender k stack | receiver | consumer => rfl
  | arrive source datagram buf =>
    have hfull : recvfrom blankBuffer (recvfrom buf datagram).toList = recvfrom buf datagram :=
      Vector.toList_inj.mp (recvfrom_whole (Vector.length_toList ..) _)
    simp only [step, Event.seen, arrive, udpReceive, hfull]

theorem run_of_seen_eq {evs evs' : List Event} (he : evs.map Event.seen = evs'.map Event.seen)
    (h : run (step host) s evs = some t) : run (step host) s evs' = some t := by
  obtain ⟨t', ht', rfl⟩ := run_congr (f := id) (fun {u u' e e' v} hu he hv =>
    ⟨v, by rw [← show u = u' from hu, ← step_seen, ← he, step_seen, hv], rfl⟩) rfl he h
  exact ht'

theorem seen_withoutBuffer {e : Event} (h : e.fills) : e.withoutBuffer.seen = e.seen := by
  cases e with
  | call k message | send k memory | sender k stack | receiver | consumer => rfl
  | arrive source datagram buf => simp only [Event.withoutBuffer, Event.seen, recvfrom_of_le h blankBuffer buf]

theorem fills_withoutBuffer {e : Event} : e.withoutBuffer.fills ↔ e.fills := by
  cases e <;> rfl

/-- Where the datagrams fill the buffer, what it held is not seen. -/
theorem map_seen_eq {evs evs' : List Event} (hf : ∀ e ∈ evs, e.fills)
    (he : evs'.map Event.withoutBuffer = evs.map Event.withoutBuffer) :
    evs'.map Event.seen = evs.map Event.seen := by
  have hseen : ∀ {l : List Event}, (∀ e ∈ l, e.fills) →
      l.map Event.seen = (l.map Event.withoutBuffer).map Event.seen := fun hl => by
    rw [List.map_map]
    exact List.map_congr_left fun e he => (seen_withoutBuffer (hl e he)).symm
  have hf' : ∀ e ∈ evs', e.fills := fun e hmem => by
    have hmem' := List.mem_map_of_mem (f := Event.withoutBuffer) hmem
    rw [he] at hmem'
    obtain ⟨e', he', heq⟩ := List.mem_map.mp hmem'
    rw [← fills_withoutBuffer, ← heq, fills_withoutBuffer]
    exact hf e' he'
  rw [hseen hf, hseen hf', he]

/-- The events up to the first corrupted datagram, and then those that are not corrupted. -/
theorem filter_corrupted (host : ByteOrder) (evs : List Event) : evs.filter (!corrupted host ·) =
    evs.takeWhile (!corrupted host ·) ++ (evs.dropWhile (!corrupted host ·)).filter (!corrupted host ·) := by
  conv_lhs => rw [← List.takeWhile_append_dropWhile (p := (!corrupted host ·)) (l := evs)]
  rw [List.filter_append, List.filter_eq_self.mpr fun e he =>
    List.all_eq_true.mp List.all_takeWhile e he]

/-- A run without its corrupted datagrams, where those that are accepted after the first of
them fill the buffer. Its strings are the same whatever the addresses are. -/
theorem run_without (keep : Bool) {evs kept : List Event} (hw : Whole host evs) (hk : Without host evs kept)
    (hpeer : keep = true → AllSteps (step host) (FromPeer host) s evs)
    (h : run (step host) s evs = some t) :
    ∃ t', run (step host) s kept = some t' ∧ mask keep t = mask keep t' := by
  obtain ⟨t', ht', hm⟩ := run_mask keep (u := s) rfl hpeer h
  obtain ⟨later, rfl, hlater⟩ := hk
  refine ⟨t', run_of_seen_eq ?_ ht', hm⟩
  rw [filter_corrupted, List.map_append, List.map_append, map_seen_eq (fun e he => ?_) hlater]
  obtain ⟨he, hc⟩ := List.mem_filter.mp he
  exact hw e he (by simpa using hc)

/-! ## What a datagram that does not fill the buffer has of it -/

/-- The payload that an event has accepted. -/
def acceptedOf (host : ByteOrder) : Event → List (List UInt8)
  | .arrive _ datagram buf =>
    if (arrival host datagram buf).isCorrupted then [] else [(arrival host datagram buf).payload.toList]
  | _ => []

theorem step_accepted {e : Event} (h : s.step host e = some s') :
    s'.accepted = s.accepted ++ acceptedOf host e := by
  cases e with
  | call k message | send k memory | sender k stack | receiver | consumer =>
    rw [accepted, accepted, (step_received h rfl).1]
    exact (List.append_nil _).symm
  | arrive source datagram buf =>
    obtain ⟨-, rfl⟩ := arrive_eq.mp h
    simp only [accepted, acceptedOf, List.filter_append, List.map_append]
    cases hc : (arrival host datagram buf).isCorrupted <;> simp [hc]

theorem run_accepted {evs : List Event} (h : run (step host) s evs = some t) :
    t.accepted = s.accepted ++ evs.flatMap (acceptedOf host) := by
  induction evs generalizing s with
  | nil =>
    obtain rfl := Option.some.inj h
    exact (List.append_nil _).symm
  | cons e evs ih =>
    obtain ⟨s', hs, ht⟩ := run_cons_eq_some.mp h
    rw [ih ht, step_accepted hs, List.append_assoc, List.flatMap_cons]

theorem checksum_set_last (v : Vector UInt8 LDP_PACKET_SIZE) (b : UInt8) :
    LDPPacket.calculateChecksum host (LDPPacket.checksummed (v.set 14 b)) =
      LDPPacket.calculateChecksum host (LDPPacket.checksummed v) := by
  rw [LDPPacket.checksummed_eq, LDPPacket.checksummed_eq]
  simp only [Vector.getElem_set, Nat.reduceEqDiff, ↓reduceIte]
  exact calculateChecksum_last host
    (l := [v[2], v[3], v[4], v[5], v[6], v[7], v[8], v[9], v[10], v[11], v[12], v[13]]) rfl b v[14]

theorem recvfrom_set_last {d : List UInt8} (hd : d.length < 15) (buf : Vector UInt8 LDP_PACKET_SIZE)
    (b : UInt8) : recvfrom (buf.set 14 b) d = (recvfrom buf d).set 14 b := by
  apply Vector.ext; intro i hi
  rw [recvfrom_getElem _ _ hi, Vector.getElem_set, Vector.getElem_set, recvfrom_getElem _ _ hi]
  split
  · rw [List.getElem?_eq_none (by omega)]
    rfl
  · rfl

/-- The last byte of the payload, which the checksum does not cover, is the buffer's. -/
theorem exists_other_payload {d : List UInt8} (hd : d.length < 15) {buf : Vector UInt8 LDP_PACKET_SIZE}
    (hc : (arrival host d buf).isCorrupted = false) :
    ∃ buf', (arrival host d buf').isCorrupted = false ∧
      (arrival host d buf').payload ≠ (arrival host d buf).payload := by
  refine ⟨buf.set 14 (buf[14] + 1), ?_, fun he => ?_⟩
  · rw [← hc]
    simp only [arrival, LDPPacket.decoded, recvfrom_set_last hd, checksum_set_last, Vector.getElem_set,
      Nat.reduceEqDiff, ↓reduceIte]
  · have hlast : ∀ v, (LDPPacket.decoded host v).payload[7] = v[14] := fun _ => rfl
    have hbyte := congrArg (fun payload : Vector UInt8 8 => payload[7]) he
    simp only [arrival, hlast] at hbyte
    rw [recvfrom_set_last hd, Vector.getElem_set_self, recvfrom_getElem _ _ (by decide),
      List.getElem?_eq_none (by omega)] at hbyte
    simp at hbyte

/-- Without the corrupted datagrams, the buffer may have held what it did. -/
theorem without_filter (host : ByteOrder) (evs : List Event) :
    Without host evs (evs.filter (!corrupted host ·)) :=
  ⟨_, filter_corrupted host evs, rfl⟩

/-- Where what is accepted after a corrupted datagram does not depend on what the buffer held, it
fills the buffer. -/
theorem WithoutEffect.whole {evs : List Event} (h : run (step host) s evs = some t)
    (he : WithoutEffect host s evs) : Whole host evs := by
  intro e hmem hc
  cases e with
  | call k message | send k memory | sender k stack | receiver | consumer => trivial
  | arrive source d buf =>
    by_contra hd
    obtain ⟨buf', hc', hne⟩ := exists_other_payload (Nat.lt_of_not_le hd) hc
    obtain ⟨before, after, hsplit⟩ := List.append_of_mem
      (List.mem_filter (p := (!corrupted host ·)).mpr ⟨hmem, by rw [hc]; rfl⟩)
    -- the same run, but for the last byte that the buffer held
    obtain ⟨t₁, h₁, ha₁, -⟩ := he.same t _ h (without_filter host evs)
    obtain ⟨t₂, h₂, ha₂, -⟩ := he.same t (evs.takeWhile (!corrupted host ·) ++
      (before ++ .arrive source d buf' :: after)) h ⟨_, rfl, by simp [hsplit, Event.withoutBuffer]⟩
    have hsame := (run_accepted h₁).symm.trans ((ha₁.trans ha₂.symm).trans (run_accepted h₂))
    rw [filter_corrupted, hsplit] at hsame
    simp only [List.flatMap_append, List.flatMap_cons, List.append_cancel_left_eq,
      List.append_cancel_right_eq, acceptedOf, show (arrival host d buf).isCorrupted = false from hc, hc',
      Bool.false_eq_true, ↓reduceIte, List.cons.injEq, and_true] at hsame
    exact hne (Vector.toList_inj.mp hsame).symm

/-- The corrupted datagrams of a run can be taken out of it without effect (on the message
queue and its semaphores, what is accepted and delivered, what is sent, where to, and the
address) exactly if each comes from the address that the endpoint has when it arrives, and
those that are accepted after the first of them fill the buffer. -/
theorem run_without_corrupted {evs : List Event} (h : run (step host) s evs = some t) :
    WithoutEffect host s evs ↔ AllSteps (step host) (FromPeer host) s evs ∧ Whole host evs := by
  have hharmless := allSteps_congr (fun {u e u'} hs => @harmless_iff host u u' e hs) h
  refine ⟨fun he => ⟨hharmless.mp he.harmless, he.whole h⟩, fun ⟨hpeer, hw⟩ => ⟨hharmless.mpr hpeer, ?_⟩⟩
  intro t₁ kept h₁ hk
  obtain rfl := Option.some.inj (h.symm.trans h₁)
  obtain ⟨t', ht', hm⟩ := run_without true hw hk (fun _ => hpeer) h
  have haccepted := congrArg accepted hm
  rw [accepted_mask, accepted_mask] at haccepted
  exact ⟨t', ht', haccepted.symm, (congrArg delivered hm).symm, (congrArg queue hm).symm,
    (congrArg sent hm).symm, (congrArg chateeSockaddr hm).symm⟩

/-- A corrupted datagram arrives from `source`, and then a message is typed and sent. -/
def typedAfterCorrupted (source : Sockaddr) : List Event :=
  [.arrive source badDatagram blankBuffer, .call 0 [104, 105], .send 0 blankPacket, .send 0 blankPacket,
    .send 0 blankPacket, .send 0 blankPacket, .send 0 blankPacket, .sender 0 blankBuffer,
    .sender 0 blankBuffer, .sender 0 blankBuffer]

theorem run_without_corrupted_fromPeer :
    ∃ t, run (step .little) (chatter true peerAddress peerAddress 1) (typedAfterCorrupted peerAddress) = some t ∧
      (WithoutEffect .little (chatter true peerAddress peerAddress 1) (typedAfterCorrupted peerAddress) ↔
        AllSteps (step .little) (FromPeer .little) (chatter true peerAddress peerAddress 1)
            (typedAfterCorrupted peerAddress) ∧
          Whole .little (typedAfterCorrupted peerAddress)) :=
  ⟨_, rfl, run_without_corrupted (show run (step .little) (chatter true peerAddress peerAddress 1)
    (typedAfterCorrupted peerAddress) = _ from rfl)⟩

/-- The packet of `hi` with a stored checksum of zero. -/
def unsummedDatagram : List UInt8 := [0, 0, 3, 0, 123, 3, 21, 104, 105, 0, 0, 0, 0, 0, 0]

/-- The buffer that it leaves. -/
def unsummedBuffer : Vector UInt8 LDP_PACKET_SIZE := #v[0, 0, 3, 0, 123, 3, 21, 104, 105, 0, 0, 0, 0, 0, 0]

/-- It arrives from the peer, then the two bytes of the checksum, and what the buffer
holds by then is delivered. -/
def checksumAfterCorrupted : List Event :=
  .arrive peerAddress unsummedDatagram blankBuffer :: .arrive peerAddress [148, 0] unsummedBuffer ::
    .replicate 5 .receiver ++ .replicate 6 .consumer

/-- A client whose peer is at `peerAddress` sends what is typed to wherever a corrupted
datagram came from; and delivers a message of a corrupted datagram's bytes, where without it
there is none. -/
theorem corrupted_has_effect :
    ((run (step .little) (chatter true peerAddress peerAddress 1) (typedAfterCorrupted strangerAddress)).map
        (·.sent.map (·.dest)) = some [strangerAddress] ∧
      (run (step .little) (chatter true peerAddress peerAddress 1)
          ((typedAfterCorrupted strangerAddress).filter (!corrupted .little ·))).map
        (·.sent.map (·.dest)) = some [peerAddress] ∧
      ¬ WithoutEffect .little (chatter true peerAddress peerAddress 1) (typedAfterCorrupted strangerAddress)) ∧
    (run (step .little) (chatter true peerAddress peerAddress 1) checksumAfterCorrupted).map (·.delivered) =
        some [[104, 105, 0, 0, 0, 0, 0, 0]] ∧
      (run (step .little) (chatter true peerAddress peerAddress 1) [.arrive peerAddress [148, 0] blankBuffer]).map
        (·.accepted) = some [] ∧
      ¬ WithoutEffect .little (chatter true peerAddress peerAddress 1) checksumAfterCorrupted := by
  refine ⟨⟨by decide, by decide, fun h => ?_⟩, by decide, by decide, fun h => ?_⟩
  · exact absurd (h.harmless.1 (by decide) _ rfl).2.2.2 (by decide)
  · have hunsummed : corrupted .little (.arrive peerAddress unsummedDatagram blankBuffer) = true := by decide
    have hchecksum : corrupted .little (.arrive peerAddress [148, 0] unsummedBuffer) = false := by decide
    have hreceiver : corrupted .little .receiver = false := rfl
    have hconsumer : corrupted .little .consumer = false := rfl
    obtain ⟨t', ht', -⟩ := h.same _ (.arrive peerAddress [148, 0] blankBuffer ::
      (.replicate 5 .receiver ++ .replicate 6 .consumer)) rfl
      ⟨_, by simp [checksumAfterCorrupted, hunsummed]; rfl, by
        simp [checksumAfterCorrupted, hunsummed, hchecksum, hreceiver, hconsumer, Event.withoutBuffer]⟩
    have hnone : (run (step .little) (chatter true peerAddress peerAddress 1)
      (.arrive peerAddress [148, 0] blankBuffer :: (.replicate 5 .receiver ++ .replicate 6 .consumer))).isSome =
        false := by decide
    rw [ht'] at hnone
    exact Bool.false_ne_true hnone.symm

end Ldp.Endpoint
