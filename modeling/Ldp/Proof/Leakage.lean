import Ldp.Proof.Memory
import Ldp.Proof.Window

/-!
# What a message leaves of the memory

The last packet of a message has the end of the message, two NULs and then what the memory
held, so that the datagrams of a message depend on that memory unless its length is 6 or 7
modulo 8 (`datagrams_eq_iff`). All other packets are written in full (`Carries.wire_eq`).
-/

namespace Ldp

open Framework

variable {message : List UInt8} {i : Nat}

/-- A packet whose last byte is one of the message, its NUL or the second NUL has the same
wire form in any memory. -/
theorem Carries.wire_eq {packet packet' : LDPPacket} (h : i ≤ message.length)
    (hi : i + 7 ≤ message.length + 1) (hc : Carries message i packet) (hc' : Carries message i packet')
    (host : ByteOrder) : packet.wire host = packet'.wire host := by
  obtain ⟨memory, hp⟩ := hc
  obtain ⟨memory', hp'⟩ := hc'
  have hpayload : packet.payload = packet'.payload := by
    apply Vector.ext; intro j hj
    rw [ofMessage_payload h hp hj, ofMessage_payload h hp' hj]
    simp only [show i + j ≤ message.length + 1 by omega, ↓reduceIte]
  obtain ⟨payload, he, -⟩ := LDPPacket.ofMessage_eq memory (min_le_cStr h)
  obtain ⟨payload', he', -⟩ := LDPPacket.ofMessage_eq memory' (min_le_cStr h)
  obtain rfl := Option.some.inj (hp.symm.trans he)
  obtain rfl := Option.some.inj (hp'.symm.trans he')
  simp only at hpayload
  subst hpayload
  rfl

/-- The packets of a message whose length is 6 or 7 modulo 8 are all of this kind; so are
those of one that `int` cannot count, of which the last is not reached. -/
theorem written_of_length {j : Nat} (hm : 6 ≤ message.length % 8 ∨ INT_MAX < message.length)
    (hj : 8 * j ≤ message.length) (hmax : 8 * j ≤ INT_MAX) : 8 * j + 7 ≤ message.length + 1 := by
  unfold INT_MAX at *
  omega

/-! ## The datagrams of a thread -/

/-- The index of the loop of `send`. -/
def SendPc.index : SendPc → Nat
  | .idle => 0
  | .test _ i | .slot _ i | .locked _ i | .pushed _ i | .unlocked _ i | .next _ i | .overflow _ i => i

/-- The packets up to an index. -/
theorem SendPc.le_of_current {pc : SendPc} (h : pc.current = some (message, i)) : i ≤ pc.index + 8 := by
  cases pc <;> simp only [current, Option.some.injEq, Prod.mk.injEq, reduceCtorEq] at h <;>
    simp only [index] <;> omega

namespace Endpoint

variable {host : ByteOrder} {s s' : Endpoint} {k : Nat}

/-- The datagrams sent of the packets of thread `k`. -/
def datagramsOf (s : Endpoint) (k : Nat) : List (Vector UInt8 LDP_PACKET_SIZE) :=
  ((s.pushed.zip s.sent).filter (·.1.1 = k)).map (·.2.datagram)

/-- Those of them that are sent for `message`, which the thread called `send` with after
the messages `earlier`. -/
def datagramsFor (s : Endpoint) (k : Nat) (earlier : List (List UInt8)) (message : List UInt8) :
    List (Vector UInt8 LDP_PACKET_SIZE) :=
  ((s.datagramsOf k).drop (earlier.map packetCount).sum).take (packetCount message)

/-- A thread of `ldpPacketSender` sends the wire form of a packet. -/
theorem datagram_eq_wire {isClient : Bool} {memory resolved : Sockaddr} {callers : Nat} {evs : List Event}
    (h : run (step host) (chatter isClient memory resolved callers) evs = some s) :
    ∀ x ∈ s.sent, x.datagram = x.packet.wire host := by
  refine run_induction (I := fun s => ∀ x ∈ s.sent, x.datagram = x.packet.wire host)
    (fun {s e s'} hi hs x hx => ?_) (fun x hx => ?_) h
  · rcases step_sent hs with he | ⟨_, _, packet, -, -, he⟩
    · exact hi x (he ▸ hx)
    · rw [he] at hx
      rcases List.mem_append.mp hx with hx | hx
      · exact hi x hx
      · obtain rfl := List.mem_singleton.mp hx
        rfl
  · cases isClient <;> exact absurd hx List.not_mem_nil

/-- A step of `send` keeps the index in the range of `int`. -/
theorem send_index {memory : LDPPacket} {pc : SendPc} (hi : pc.index ≤ INT_MAX)
    (h : s.send k memory pc = some s') :
    ∃ pc', s'.callers = s.callers.set k pc' ∧ pc'.index ≤ INT_MAX := by
  cases pc with
  | idle | overflow message i => simp only [send, reduceCtorEq] at h
  | test message i =>
    simp only [send] at h
    split at h
    · obtain ⟨_, -, h⟩ := Option.bind_eq_some_iff.mp h
      obtain rfl := Option.some.inj h
      exact ⟨_, rfl, hi⟩
    · obtain rfl := Option.some.inj h
      exact ⟨_, rfl, Nat.zero_le _⟩
  | slot message i | locked message i =>
    obtain ⟨_, -, h⟩ := Option.bind_eq_some_iff.mp h
    obtain rfl := Option.some.inj h
    exact ⟨_, rfl, hi⟩
  | pushed message i | unlocked message i =>
    obtain rfl := Option.some.inj h
    exact ⟨_, rfl, hi⟩
  | next message i =>
    obtain rfl := Option.some.inj h
    refine ⟨_, rfl, ?_⟩
    split
    · assumption
    · exact hi

theorem step_index {e : Event} (hi : ∀ pc ∈ s.callers, pc.index ≤ INT_MAX) (h : s.step host e = some s') :
    ∀ pc ∈ s'.callers, pc.index ≤ INT_MAX := by
  intro pc hpc
  cases e with
  | call k message =>
    obtain ⟨pc₀, -, h⟩ := Option.bind_eq_some_iff.mp h
    obtain ⟨-, rfl⟩ := call_eq h
    rcases List.mem_or_eq_of_mem_set hpc with hm | rfl
    · exact hi pc hm
    · exact Nat.zero_le _
  | send k memory =>
    obtain ⟨pc₀, hk, h⟩ := Option.bind_eq_some_iff.mp h
    obtain ⟨pc', hset, hle⟩ := send_index (hi pc₀ (List.mem_of_getElem? hk)) h
    rw [hset] at hpc
    rcases List.mem_or_eq_of_mem_set hpc with hm | rfl
    · exact hi pc hm
    · exact hle
  | sender k stack | arrive source datagram buf | receiver | consumer =>
    exact hi pc ((step_callers h rfl).1 ▸ hpc)

variable {isClient : Bool} {memory resolved : Sockaddr} {callers : Nat} {evs : List Event}
  {earlier later : List (List UInt8)} {message : List UInt8}

theorem callers_index (h : run (step host) (chatter isClient memory resolved callers) evs = some s) :
    ∀ pc ∈ s.callers, pc.index ≤ INT_MAX := by
  refine run_induction (I := fun s => ∀ pc ∈ s.callers, pc.index ≤ INT_MAX)
    (fun hi hs => step_index hi hs) (fun pc hpc => ?_) h
  have hidle : pc = .idle := by cases isClient <;> exact List.eq_of_mem_replicate hpc
  exact hidle ▸ Nat.zero_le _

/-- The packets that a thread pushes for a message carry it, whatever it sends before and
after. -/
theorem pushedBy_carries (h : run (step host) (chatter isClient memory resolved callers) evs = some s)
    (hc : s.calledBy k = earlier ++ message :: later) {j : Nat} {packet : LDPPacket}
    (hj : j < packetCount message) (hp : (s.pushedBy k)[(earlier.map packetCount).sum + j]? = some packet) :
    Carries message (8 * j) packet ∧ 8 * j ≤ message.length ∧ 8 * j ≤ INT_MAX := by
  have hlt := (numbered h).lt_of_mem (hc ▸ List.mem_append_right earlier List.mem_cons_self)
  obtain ⟨-, returned, groups, part, hcalled, hpushed, hs, hpart⟩ :=
    callers_progress h k _ (List.getElem?_eq_getElem hlt)
  have hindex := callers_index h _ (List.getElem_mem hlt)
  rw [hpushed] at hp
  rw [hc] at hcalled
  -- the message is one of those whose call has returned, or the one in progress
  cases hcur : s.callers[k].current with
  | none =>
    rw [hcur, Option.map_none, Option.toList_none, List.append_nil] at hcalled
    exact carries_of_group (hcalled ▸ hs) hj hp
  | some cur =>
    obtain ⟨m, i⟩ := cur
    rw [hcur] at hpart
    rw [hcur, Option.map_some, Option.toList_some] at hcalled
    rcases List.eq_nil_or_concat later with rfl | ⟨later', last, rfl⟩
    · obtain ⟨rfl, he⟩ := List.append_inj' hcalled rfl
      obtain rfl := List.singleton_inj.mp he
      rw [← length_flatten_sends hs, List.getElem?_append_right (by omega), Nat.add_sub_cancel_left] at hp
      obtain ⟨h1, h2, h3⟩ := Pushed.carries hpart hp
      have hle := SendPc.le_of_current hcur
      exact ⟨h1, h2, by omega⟩
    · rw [List.concat_eq_append, ← List.cons_append, ← List.append_assoc] at hcalled
      obtain ⟨rfl, -⟩ := List.append_inj' hcalled rfl
      exact carries_of_group hs hj hp

theorem datagramsOf_eq (h : run (step host) (chatter isClient memory resolved callers) evs = some s) :
    s.datagramsOf k = (s.sentOf k).map (·.wire host) := by
  rw [datagramsOf, sentOf, List.map_map]
  refine List.map_congr_left fun x hx => datagram_eq_wire h x.2 ?_
  exact (List.of_mem_zip (List.mem_of_mem_filter hx)).2

/-- The datagrams sent for a message are packets that carry it. -/
theorem datagramsFor_carries (h : run (step host) (chatter isClient memory resolved callers) evs = some s)
    (hc : s.calledBy k = earlier ++ message :: later) {j : Nat} {d : Vector UInt8 LDP_PACKET_SIZE}
    (hd : (s.datagramsFor k earlier message)[j]? = some d) :
    ∃ packet : LDPPacket, d = packet.wire host ∧
      Carries message (8 * j) packet ∧ 8 * j ≤ message.length ∧ 8 * j ≤ INT_MAX := by
  rw [datagramsFor, List.getElem?_take] at hd
  split at hd
  · rename_i hj
    rw [List.getElem?_drop, datagramsOf_eq h, List.getElem?_map] at hd
    obtain ⟨packet, hp, rfl⟩ := Option.map_eq_some_iff.mp hd
    obtain ⟨rest, hrest⟩ := sentOf_initial (window_inv h).order k
    refine ⟨packet, rfl, pushedBy_carries h hc hj ?_⟩
    rw [← hrest, List.getElem?_append_left (List.getElem?_eq_some_iff.mp hp).1, hp]
  · exact absurd hd (by simp)

/-- How many datagrams are sent of the packets of a thread is seen in the shape. -/
theorem length_datagramsOf_shape (s : Endpoint) (k : Nat) :
    ((shape s).datagramsOf k).length = (s.datagramsOf k).length := by
  simp only [datagramsOf, shape, List.zip_map, List.filter_map, List.length_map]
  rfl

/-- In two runs of the same events, up to the memory of packets, a message whose packets
are written in full is sent as the same datagrams. -/
theorem datagramsFor_eq {evs' : List Event}
    (h : run (step host) (chatter isClient memory resolved callers) evs = some s)
    (h' : run (step host) (chatter isClient memory resolved callers) evs' = some s')
    (he : evs.map Event.withoutMemory = evs'.map Event.withoutMemory)
    (hc : s.calledBy k = earlier ++ message :: later)
    (hm : 6 ≤ message.length % 8 ∨ INT_MAX < message.length) :
    s.datagramsFor k earlier message = s'.datagramsFor k earlier message := by
  have hshape := run_shape he h h'
  have hc' : s'.calledBy k = earlier ++ message :: later := by
    rw [← hc, calledBy, calledBy]
    exact congrArg (fun s : Endpoint => (s.called.filter (·.1 = k)).map Prod.snd) hshape.symm
  have hlen : (s.datagramsOf k).length = (s'.datagramsOf k).length := by
    rw [← length_datagramsOf_shape, hshape, length_datagramsOf_shape]
  apply List.ext_getElem
  · simp only [datagramsFor, List.length_take, List.length_drop, hlen]
  · intro j hj hj'
    obtain ⟨packet, hd, hcar, hle, hmax⟩ := datagramsFor_carries h hc (List.getElem?_eq_getElem hj)
    obtain ⟨packet', hd', hcar', -, -⟩ := datagramsFor_carries h' hc' (List.getElem?_eq_getElem hj')
    rw [hd, hd']
    exact hcar.wire_eq hle (written_of_length hm hle hmax) hcar' host

/-! ## Runs in any memory -/

/-- A thread has called `send` with `message`, is at `pc`, and its packets so far have been
sent. -/
def sending (host : ByteOrder) (message : List UInt8) (pc : SendPc) (packets : List LDPPacket) :
    Endpoint :=
  { chatter true peerAddress peerAddress 1 with
    callers := [pc]
    called := [(0, message)]
    pushed := packets.map fun packet => (0, packet)
    sent := packets.map fun packet => ⟨packet, peerAddress, packet.wire host⟩ }

/-- A packet is pushed and sent, and so are `n` and one more. -/
def pushEvents (memory : LDPPacket) : List Event :=
  List.replicate 5 (.send 0 memory) ++ List.replicate 5 (.sender 0 blankBuffer)

def pushesEvents (memory : LDPPacket) : Nat → List Event
  | 0 => pushEvents memory
  | n + 1 => pushesEvents memory n ++ .send 0 memory :: pushEvents memory

/-- The packet at index `i` is pushed, and sent from the only place in the window. -/
theorem run_pushEvents {i : Nat} {packets : List LDPPacket} {memory packet : LDPPacket}
    (h : i ≤ message.length)
    (hp : LDPPacket.ofMessage memory ((cStr message).drop i) (message.length - i + 1) = some packet) :
    run (step host) (sending host message (.test message i) packets) (pushEvents memory) =
      some (sending host message (.next message i) (packets ++ [packet])) := by
  -- the caller pushes the packet, and then the first sender sends it
  have hpush : run (step host) (sending host message (.test message i) packets)
      (List.replicate 5 (.send 0 memory)) = some { sending host message (.next message i) packets with
        senderWindow := [packet]
        senderWindowFullSlotCount := 1
        senderWindowEmptySlotCount := 1023
        pushed := packets.map (fun packet => (0, packet)) ++ [(0, packet)] } := by
    simp only [List.replicate, run_cons, step]
    show Option.bind (if i < message.length + 1 then _ else _) _ = _
    rw [if_pos (Nat.lt_succ_of_le h)]
    show Option.bind (Option.bind (LDPPacket.ofMessage _ _ _) _) _ = _
    rw [hp]
    rfl
  have hsend : run (step host) { sending host message (.next message i) packets with
        senderWindow := [packet]
        senderWindowFullSlotCount := 1
        senderWindowEmptySlotCount := 1023
        pushed := packets.map (fun packet => (0, packet)) ++ [(0, packet)] }
      (List.replicate 5 (.sender 0 blankBuffer)) =
        some (sending host message (.next message i) (packets ++ [packet])) := by
    simp [run_cons, step, sending, ldpPacketSender, udpSend, LDPPacket.encode_eq, semWait, semPost,
      BoundedBuffer.lock, chatter, listen, createAndBindSocket, computeChateeAddrInfo, construct,
      initializeThreadMhreadEtcMtc, raw]
  rw [pushEvents, run_append, hpush]
  exact hsend

/-- The packets of a message up to index `8 * n`, where the index is in the range of `int`. -/
theorem run_pushesEvents (host : ByteOrder) (memory : LDPPacket) {n : Nat} (h : 8 * n ≤ message.length)
    (hmax : 8 * n ≤ INT_MAX) :
    ∃ packets packet, packets.length = n ∧
      LDPPacket.ofMessage memory ((cStr message).drop (8 * n)) (message.length - 8 * n + 1) = some packet ∧
      run (step host) (sending host message (.test message 0) []) (pushesEvents memory n) =
        some (sending host message (.next message (8 * n)) (packets ++ [packet])) := by
  obtain ⟨packet, hp⟩ := exists_carries memory h
  induction n generalizing packet with
  | zero => exact ⟨[], packet, rfl, hp, run_pushEvents h hp⟩
  | succ n ih =>
    obtain ⟨last, hl⟩ := exists_carries memory (show 8 * n ≤ message.length by omega)
    obtain ⟨packets, last, hlen, -, hrun⟩ := ih (by omega) (by omega) last hl
    refine ⟨packets ++ [last], packet, by rw [List.length_append, hlen]; rfl, hp, ?_⟩
    have hnext : (sending host message (.next message (8 * n)) (packets ++ [last])).step host
        (.send 0 memory) =
        some (sending host message (.test message (8 * n + 8)) (packets ++ [last])) := by
      simp [step, sending, send, show 8 * n + 8 ≤ INT_MAX from hmax]
    rw [pushesEvents, run_append, hrun, Option.bind_some, run_cons, hnext, Option.bind_some]
    exact run_pushEvents h hp

theorem datagramsFor_sending {pc : SendPc} {packets : List LDPPacket}
    (h : packets.length ≤ packetCount message) :
    (sending host message pc packets).datagramsFor 0 [] message = packets.map (·.wire host) := by
  have hzip : (sending host message pc packets).datagramsOf 0 = packets.map (·.wire host) := by
    simp only [datagramsOf, sending, List.zip_map', List.filter_map, List.map_map]
    rw [List.filter_eq_self.mpr fun packet _ => by simp]
    rfl
  rw [datagramsFor, hzip, List.map_nil, List.sum_nil, List.drop_zero, List.take_of_length_le]
  rwa [List.length_map]

theorem run_call (host : ByteOrder) (message : List UInt8) (evs : List Event) :
    run (step host) (chatter true peerAddress peerAddress 1) (.call 0 message :: evs) =
      run (step host) (sending host message (.test message 0) []) evs := rfl

theorem calledBy_sending {pc : SendPc} {packets : List LDPPacket} :
    (sending host message pc packets).calledBy 0 = [message] := by
  simp [calledBy, sending]

/-- These runs differ only in what the memory holds. -/
theorem map_pushesEvents (memory : LDPPacket) (n : Nat) :
    (pushesEvents memory n).map Event.withoutMemory = pushesEvents blankPacket n := by
  induction n with
  | zero => rfl
  | succ n ih =>
    rw [pushesEvents, List.map_append, ih]
    rfl

/-- The last packet of a message, if it is not written in full, shows the memory. -/
theorem wire_ne {i : Nat} {packet packet' : LDPPacket} (h : i ≤ message.length)
    (hi : message.length + 1 < i + 7)
    (hp : LDPPacket.ofMessage blankPacket ((cStr message).drop i) (message.length - i + 1) = some packet)
    (hp' : LDPPacket.ofMessage usedMemory ((cStr message).drop i) (message.length - i + 1) = some packet') :
    packet.wire host ≠ packet'.wire host := by
  intro he
  have h7 : packet.payload[7] = packet'.payload[7] := congrArg (·.get 14) he
  rw [ofMessage_payload h hp (by decide), ofMessage_payload h hp' (by decide), if_neg (by omega),
    if_neg (by omega), if_neg (by omega), if_neg (by omega)] at h7
  exact absurd h7 (by decide)

/-- In any two runs that differ only in what the memory holds in which packets are
constructed, the same datagrams are sent for a message, exactly if its length is 6 or 7
modulo 8 or not in the range of `int`. -/
theorem datagrams_eq_iff (host : ByteOrder) (message : List UInt8) :
    (∀ isClient memory resolved callers evs evs' s s' k earlier later,
      run (step host) (chatter isClient memory resolved callers) evs = some s →
      run (step host) (chatter isClient memory resolved callers) evs' = some s' →
      evs.map Event.withoutMemory = evs'.map Event.withoutMemory →
      s.calledBy k = earlier ++ message :: later →
      s.datagramsFor k earlier message = s'.datagramsFor k earlier message) ↔
    6 ≤ message.length % 8 ∨ INT_MAX < message.length := by
  refine ⟨fun h => ?_, fun hm _ _ _ _ _ _ _ _ _ _ _ hs hs' he hc => datagramsFor_eq hs hs' he hc hm⟩
  by_contra hm
  obtain ⟨hmod, hmax⟩ := not_or.mp hm
  have hle : 8 * (message.length / 8) ≤ message.length := Nat.mul_div_le _ 8
  have hrange : 8 * (message.length / 8) ≤ INT_MAX := Nat.le_trans hle (Nat.le_of_not_lt hmax)
  obtain ⟨packets, packet, hlen, hp, hrun⟩ := run_pushesEvents host blankPacket hle hrange
  obtain ⟨packets', packet', hlen', hp', hrun'⟩ := run_pushesEvents host usedMemory hle hrange
  have hs := (run_call host message _).trans hrun
  have hs' := (run_call host message _).trans hrun'
  have hmem : ∀ memory, (Event.call 0 message :: pushesEvents memory (message.length / 8)).map
      Event.withoutMemory = .call 0 message :: pushesEvents blankPacket (message.length / 8) :=
    fun memory => congrArg _ (map_pushesEvents memory _)
  have hd := h _ _ _ _ _ _ _ _ 0 [] [] hs hs' ((hmem _).trans (hmem _).symm) calledBy_sending
  have hcount : (packets ++ [packet]).length ≤ packetCount message := by
    rw [List.length_append, hlen, List.length_singleton, packetCount]
  have hcount' : (packets' ++ [packet']).length ≤ packetCount message := by
    rw [List.length_append, hlen', List.length_singleton, packetCount]
  rw [datagramsFor_sending hcount, datagramsFor_sending hcount', List.map_append, List.map_append] at hd
  obtain ⟨-, hlast⟩ := List.append_inj' hd (by rw [List.length_map, List.length_map]; rfl)
  refine wire_ne hle ?_ hp hp' (List.singleton_inj.mp hlast)
  omega

/-- The message `hi`, sent from memory that was zero and from memory that was used before. -/
theorem hi_leaks :
    ∃ s s', run (step .little) (chatter true peerAddress peerAddress 1)
        (.call 0 [104, 105] :: pushEvents blankPacket) = some s ∧
      run (step .little) (chatter true peerAddress peerAddress 1)
        (.call 0 [104, 105] :: pushEvents usedMemory) = some s' ∧
      (.call 0 [104, 105] :: pushEvents blankPacket).map Event.withoutMemory =
        (.call 0 [104, 105] :: pushEvents usedMemory).map Event.withoutMemory ∧
      s.calledBy 0 = [[104, 105]] ∧
      s.datagramsFor 0 [] [104, 105] = [#v[148, 0, 3, 0, 123, 3, 21, 104, 105, 0, 0, 0, 0, 0, 0]] ∧
      s'.datagramsFor 0 [] [104, 105] = [#v[227, 167, 3, 0, 123, 3, 21, 104, 105, 0, 0, 88, 88, 88, 88]] :=
  ⟨_, _, rfl, rfl, rfl, by decide, by decide, by decide⟩

end Endpoint
end Ldp
