import Ldp.Framework.Run
import Ldp.Proof.Segments
import Ldp.Proof.Steps
import Mathlib.Data.List.Forall2

/-!
# What the callers of `send` push

In every reachable state, the packets that a thread has pushed are those of the
messages it called `send` with, in order: all of those whose call has returned,
and of the message in progress those before its index (`Progress`,
`callers_progress`). So once its calls have returned, a thread has pushed what
`Ldp.send` makes of its messages (`pushedBy_eq_send`), whatever the other threads
do in the meantime.
-/

namespace Ldp

open Framework

/-- `packets` are those that the loop of `send` pushes from index `i` to its end. -/
inductive Sends (message : List UInt8) : Nat → List LDPPacket → Prop
  | done {i : Nat} : message.length < i → Sends message i []
  | push {i : Nat} {packet : LDPPacket} {packets : List LDPPacket} : i ≤ message.length →
    i + 8 ≤ INT_MAX → Carries message i packet → Sends message (i + 8) packets →
    Sends message i (packet :: packets)

/-- `packets` are those that the loop of `send` pushes before index `i`. -/
inductive Pushed (message : List UInt8) : Nat → List LDPPacket → Prop
  | start : Pushed message 0 []
  | push {i : Nat} {packet : LDPPacket} {packets : List LDPPacket} : Pushed message i packets →
    i ≤ message.length → Carries message i packet → Pushed message (i + 8) (packets ++ [packet])

variable {message : List UInt8} {i : Nat} {packets : List LDPPacket}

/-- The loop pushes what it pushes before `i`, then what it pushes from `i` on. -/
theorem Pushed.append {rest : List LDPPacket} (h : Pushed message i packets) (hi : i ≤ INT_MAX)
    (hr : Sends message i rest) : Sends message 0 (packets ++ rest) := by
  induction h generalizing rest with
  | start => exact hr
  | push _ hle hc ih =>
    rw [List.append_assoc, List.singleton_append]
    exact ih (by omega) (.push hle hi hc hr)

theorem Sends.length_eq (h : Sends message i packets) :
    packets.length = if i ≤ message.length then (message.length - i) / 8 + 1 else 0 := by
  induction h with
  | done hlt => rw [if_neg (by omega), List.length_nil]
  | push hle _ _ _ ih =>
    rw [List.length_cons, ih, if_pos hle]
    split <;> omega

/-- The packets from `i` on depend on the memory from `i` on. -/
theorem send_congr {i : Nat} {memory memory' : Nat → LDPPacket} (h : ∀ j, i ≤ j → memory j = memory' j) :
    send memory message i = send memory' message i := by
  unfold send
  split
  · rw [h i (Nat.le_refl i), send_congr (i := i + 8) fun j hj => h j (by omega)]
  · rfl
termination_by message.length + 1 - i

/-- They are what `send` makes of the message in some memory. -/
theorem Sends.exists_memory (h : Sends message i packets) :
    ∃ memory, send memory message i = some packets := by
  induction h with
  | done hlt => exact ⟨fun _ => ⟨0, false, false, false, 0, 0, Vector.replicate 8 0, false⟩, send_of_lt _ hlt⟩
  | @push i packet packets hle hmax hc _ ih =>
    obtain ⟨memory', hs⟩ := ih
    obtain ⟨m, hp⟩ := hc
    refine ⟨fun j => if j = i then m else memory' j, ?_⟩
    rw [send_of_le hle hmax (by rw [if_pos rfl]; exact hp)]
    rw [send_congr fun j hj => if_neg (show j ≠ i by omega), hs]
    rfl

/-- The packets that the loop pushes carry the message, eight bytes each. -/
theorem Sends.carries {packet : LDPPacket} {j : Nat}
    (h : Sends message i packets) (hj : packets[j]? = some packet) :
    Carries message (i + 8 * j) packet ∧ i + 8 * j ≤ message.length ∧ i + 8 * j ≤ INT_MAX := by
  induction h generalizing j with
  | done => exact absurd hj (by simp)
  | @push i p packets hle hmax hc _ ih =>
    cases j with
    | zero =>
      obtain rfl := Option.some.inj hj
      exact ⟨hc, hle, by omega⟩
    | succ j =>
      obtain ⟨h1, h2, h3⟩ := ih (List.getElem?_cons_succ ▸ hj)
      rw [show i + 8 * (j + 1) = i + 8 + 8 * j by omega]
      exact ⟨h1, h2, h3⟩

theorem Pushed.length_eq (h : Pushed message i packets) :
    i = 8 * packets.length := by
  induction h with
  | start => rfl
  | push _ _ _ ih => rw [List.length_append, List.length_singleton, ih]; omega

theorem Pushed.carries {packet : LDPPacket} {j : Nat}
    (h : Pushed message i packets) (hj : packets[j]? = some packet) :
    Carries message (8 * j) packet ∧ 8 * j ≤ message.length ∧ 8 * j + 8 ≤ i := by
  induction h with
  | start => exact absurd hj (by simp)
  | @push i p packets hp hle hc ih =>
    rcases Nat.lt_or_ge j packets.length with hlt | hge
    · obtain ⟨h1, h2, h3⟩ := ih (List.getElem?_append_left hlt ▸ hj)
      exact ⟨h1, h2, by omega⟩
    · rw [List.getElem?_append_right hge, List.getElem?_singleton] at hj
      split at hj
      · obtain rfl := Option.some.inj hj
        obtain rfl : 8 * j = i := by rw [hp.length_eq]; omega
        exact ⟨hc, hle, by omega⟩
      · exact absurd hj (by simp)

/-- The number of packets of a message. -/
def packetCount (message : List UInt8) : Nat := message.length / 8 + 1

theorem Sends.length_eq_packetCount (h : Sends message 0 packets) : packets.length = packetCount message := by
  rw [h.length_eq, if_pos (Nat.zero_le _)]
  rfl

/-- The packets of a sequence of messages, by their number. -/
theorem length_flatten_sends {messages : List (List UInt8)} {groups : List (List LDPPacket)}
    (h : List.Forall₂ (Sends · 0) messages groups) :
    groups.flatten.length = (messages.map packetCount).sum := by
  induction h with
  | nil => rfl
  | cons hm _ ih =>
    rw [List.flatten_cons, List.length_append, ih, hm.length_eq_packetCount, List.map_cons, List.sum_cons]

/-- The packets of the messages before one and of that one. -/
theorem exists_group {earlier later : List (List UInt8)} {groups : List (List LDPPacket)}
    (h : List.Forall₂ (Sends · 0) (earlier ++ message :: later) groups) :
    ∃ front group back, groups.flatten = front ++ group ++ back ∧
      front.length = (earlier.map packetCount).sum ∧ Sends message 0 group := by
  induction earlier generalizing groups with
  | nil =>
    obtain ⟨group, back, hg, -, rfl⟩ := List.forall₂_cons_left_iff.mp h
    exact ⟨[], group, back.flatten, by simp, rfl, hg⟩
  | cons m earlier ih =>
    obtain ⟨g, rest, hg, hrest, rfl⟩ := List.forall₂_cons_left_iff.mp h
    obtain ⟨front, group, back, hf, hl, hgroup⟩ := ih hrest
    refine ⟨g ++ front, group, back, by simp [hf], ?_, hgroup⟩
    rw [List.length_append, hg.length_eq_packetCount, hl, List.map_cons, List.sum_cons]

/-- The packets pushed in the place of a message carry it. -/
theorem carries_of_group {earlier later : List (List UInt8)} {groups : List (List LDPPacket)}
    {part : List LDPPacket} {packet : LDPPacket} {j : Nat}
    (h : List.Forall₂ (Sends · 0) (earlier ++ message :: later) groups) (hj : j < packetCount message)
    (hp : (groups.flatten ++ part)[(earlier.map packetCount).sum + j]? = some packet) :
    Carries message (8 * j) packet ∧ 8 * j ≤ message.length ∧ 8 * j ≤ INT_MAX := by
  obtain ⟨front, group, back, hf, hl, hg⟩ := exists_group h
  rw [hf, List.append_assoc, List.append_assoc, ← hl, List.getElem?_append_right (by omega),
    Nat.add_sub_cancel_left, List.getElem?_append_left (by rwa [hg.length_eq_packetCount])] at hp
  have hc := hg.carries hp
  rwa [Nat.zero_add] at hc

namespace SendPc

/-- The message in progress, and the index up to which its packets are pushed. -/
def current : SendPc → Option (List UInt8 × Nat)
  | .idle => none
  | .test message i | .slot message i | .locked message i => some (message, i)
  | .pushed message i | .unlocked message i | .next message i | .overflow message i =>
    some (message, i + 8)

/-- The range that the index is in. -/
def InRange : SendPc → Prop
  | .test _ i => i ≤ INT_MAX
  | .slot message i | .locked message i => i ≤ message.length
  | _ => True

end SendPc

/-- A thread at `pc` that called `send` with `called` has pushed `pushed`: the
packets of the messages whose call has returned, and those of the message in
progress up to its index. -/
def Progress (pc : SendPc) (called : List (List UInt8)) (pushed : List LDPPacket) : Prop :=
  ∃ returned groups part, called = returned ++ (pc.current.map Prod.fst).toList ∧
    pushed = List.flatten groups ++ part ∧ List.Forall₂ (Sends · 0) returned groups ∧
    match pc.current with
    | none => part = []
    | some (message, i) => Pushed message i part

namespace Endpoint

/-- The messages that thread `k` called `send` with. -/
def calledBy (s : Endpoint) (k : Nat) : List (List UInt8) :=
  (s.called.filter (·.1 = k)).map Prod.snd

/-- The packets that thread `k` has pushed. -/
def pushedBy (s : Endpoint) (k : Nat) : List LDPPacket :=
  (s.pushed.filter (·.1 = k)).map Prod.snd

/-- The progress of every caller. -/
def CallersProgress (s : Endpoint) : Prop :=
  ∀ k pc, s.callers[k]? = some pc → pc.InRange ∧ Progress pc (s.calledBy k) (s.pushedBy k)

variable {host : ByteOrder} {s s' : Endpoint} {k : Nat}

/-- A step of thread `k` keeps the progress of every caller if it keeps its own. -/
theorem CallersProgress.set {pc' : SendPc} (called : List (Nat × List UInt8))
    (pushed : List (Nat × LDPPacket)) (hi : s.CallersProgress)
    (hcallers : s'.callers = s.callers.set k pc') (hcalled : s'.called = s.called ++ called)
    (hpushed : s'.pushed = s.pushed ++ pushed) (hc : ∀ x ∈ called, x.1 = k) (hp : ∀ x ∈ pushed, x.1 = k)
    (h : pc'.InRange ∧
      Progress pc' (s.calledBy k ++ called.map Prod.snd) (s.pushedBy k ++ pushed.map Prod.snd)) :
    s'.CallersProgress := by
  intro j pc hj
  rw [hcallers, List.getElem?_set] at hj
  by_cases e : k = j
  · subst e
    have h1 : called.filter (·.1 = k) = called := List.filter_eq_self.mpr fun x hx => by simpa using hc x hx
    have h2 : pushed.filter (·.1 = k) = pushed := List.filter_eq_self.mpr fun x hx => by simpa using hp x hx
    simp only [↓reduceIte] at hj
    split at hj
    · rw [Option.some.injEq] at hj
      subst hj
      simpa only [calledBy, pushedBy, hcalled, hpushed, List.filter_append, List.map_append, h1, h2] using h
    · simp only [reduceCtorEq] at hj
  · have h1 : called.filter (·.1 = j) = [] :=
      List.filter_eq_nil_iff.mpr fun x hx => by simpa [hc x hx] using e
    have h2 : pushed.filter (·.1 = j) = [] :=
      List.filter_eq_nil_iff.mpr fun x hx => by simpa [hp x hx] using e
    rw [if_neg e] at hj
    simpa only [calledBy, pushedBy, hcalled, hpushed, List.filter_append, h1, h2, List.append_nil]
      using hi j pc hj

/-- A call of `send` begins a message. -/
theorem call_progress {message : List UInt8} {pc : SendPc} (hi : s.CallersProgress)
    (hk : s.callers[k]? = some pc) (h : s.call k message pc = some s') : s'.CallersProgress := by
  obtain ⟨rfl, rfl⟩ := call_eq h
  obtain ⟨-, returned, groups, part, hc, hp, hs, rfl⟩ := hi k _ hk
  refine hi.set [(k, message)] [] rfl rfl (List.append_nil _).symm (by simp) (by simp)
    ⟨Nat.zero_le _, returned, groups, [], ?_, ?_, hs, .start⟩
  · rw [hc]
    simp [SendPc.current]
  · simpa using hp

/-- A step of `send` that neither pushes nor ends the call. -/
theorem CallersProgress.keep {pc pc' : SendPc} (hi : s.CallersProgress) (hk : s.callers[k]? = some pc)
    (hcallers : s'.callers = s.callers.set k pc') (hcalled : s'.called = s.called)
    (hpushed : s'.pushed = s.pushed) (hcur : pc'.current = pc.current) (hr : pc'.InRange) :
    s'.CallersProgress := by
  obtain ⟨-, hp⟩ := hi k pc hk
  refine hi.set [] [] hcallers (by rw [hcalled, List.append_nil]) (by rw [hpushed, List.append_nil]) (by simp)
    (by simp) ⟨hr, ?_⟩
  rw [List.map_nil, List.map_nil, List.append_nil, List.append_nil]
  unfold Progress at hp ⊢
  rwa [hcur]

/-- The steps of `send`. -/
theorem send_progress {memory : LDPPacket} {pc : SendPc} (hi : s.CallersProgress)
    (hk : s.callers[k]? = some pc) (h : s.send k memory pc = some s') : s'.CallersProgress := by
  obtain ⟨hr, hp⟩ := hi k pc hk
  cases pc with
  | idle | overflow message i => simp only [send, reduceCtorEq] at h
  | test message i =>
    simp only [send] at h
    split at h
    · rename_i hlt
      obtain ⟨n, -, h⟩ := Option.bind_eq_some_iff.mp h
      obtain rfl := Option.some.inj h
      exact hi.keep hk rfl rfl rfl rfl (Nat.le_of_lt_succ hlt)
    · rename_i hge
      obtain rfl := Option.some.inj h
      -- the call returns: what it has pushed are the packets of the message
      obtain ⟨returned, groups, part, hc, hp, hs, hpart⟩ := hp
      have hsends := Pushed.append hpart hr (.done (by omega))
      rw [List.append_nil] at hsends
      refine hi.set [] [] rfl (List.append_nil _).symm (List.append_nil _).symm (by simp) (by simp)
        ⟨trivial, returned ++ [message], groups ++ [part], [], ?_, ?_, ?_, rfl⟩
      · simpa [SendPc.current] using hc
      · simpa using hp
      · exact List.rel_append hs (.cons hsends .nil)
  | slot message i =>
    obtain ⟨m, -, h⟩ := Option.bind_eq_some_iff.mp h
    obtain rfl := Option.some.inj h
    exact hi.keep hk rfl rfl rfl rfl hr
  | locked message i =>
    obtain ⟨packet, hpacket, h⟩ := Option.bind_eq_some_iff.mp h
    obtain rfl := Option.some.inj h
    obtain ⟨returned, groups, part, hc, hp, hs, hpart⟩ := hp
    refine hi.set [] [(k, packet)] rfl (List.append_nil _).symm rfl (by simp) (by simp)
      ⟨trivial, returned, groups, part ++ [packet], ?_, ?_, hs, .push hpart hr ⟨memory, hpacket⟩⟩
    · simpa [SendPc.current] using hc
    · rw [hp]
      simp
  | pushed message i | unlocked message i =>
    obtain rfl := Option.some.inj h
    exact hi.keep hk rfl rfl rfl rfl trivial
  | next message i =>
    obtain rfl := Option.some.inj h
    by_cases hmax : i + 8 ≤ INT_MAX
    · simp only [hmax, ↓reduceIte]
      exact hi.keep hk rfl rfl rfl rfl hmax
    · simp only [hmax, ↓reduceIte]
      exact hi.keep hk rfl rfl rfl rfl trivial

/-- A step keeps the progress of every caller. -/
theorem step_progress {e : Event} (hi : s.CallersProgress) (h : s.step host e = some s') :
    s'.CallersProgress := by
  cases e with
  | call k message =>
    obtain ⟨pc, hk, h⟩ := Option.bind_eq_some_iff.mp h
    exact call_progress hi hk h
  | send k memory =>
    obtain ⟨pc, hk, h⟩ := Option.bind_eq_some_iff.mp h
    exact send_progress hi hk h
  | sender k stack | arrive source datagram buf | receiver | consumer =>
    obtain ⟨hcallers, hcalled, hpushed⟩ := step_callers h rfl
    simpa only [CallersProgress, calledBy, pushedBy, hcallers, hcalled, hpushed] using hi

variable {isClient : Bool} {memory resolved : Sockaddr} {callers : Nat} {evs : List Event}

theorem chatter_progress : (chatter isClient memory resolved callers).CallersProgress := by
  intro k pc hk
  have hpc : pc = .idle := by
    have hm := List.mem_of_getElem? hk
    cases isClient <;> exact List.eq_of_mem_replicate hm
  subst hpc
  refine ⟨trivial, [], [], [], ?_, ?_, .nil, rfl⟩ <;> cases isClient <;> rfl

/-- The progress of every caller, in every reachable state. -/
theorem callers_progress (h : run (step host) (chatter isClient memory resolved callers) evs = some s) :
    s.CallersProgress :=
  run_induction (fun hi hs => step_progress hi hs) chatter_progress h

/-- The callers are those there were, and what is called and pushed is by one of them. -/
structure Numbered (callers : Nat) (s : Endpoint) : Prop where
  length : s.callers.length = callers
  called : ∀ x ∈ s.called, x.1 < callers
  pushed : ∀ x ∈ s.pushed, x.1 < callers

/-- A thread that has called `send` is one of them. -/
theorem Numbered.lt_of_mem {message : List UInt8} (hn : s.Numbered callers) (hm : message ∈ s.calledBy k) :
    k < s.callers.length := by
  obtain ⟨x, hx, -⟩ := List.mem_map.mp hm
  rw [List.mem_filter, decide_eq_true_eq] at hx
  exact hn.length ▸ hx.2 ▸ hn.called x hx.1

theorem send_numbered {memory : LDPPacket} {pc : SendPc} (hi : s.Numbered callers)
    (hk : s.callers[k]? = some pc) (h : s.send k memory pc = some s') : s'.Numbered callers := by
  have hlt : k < callers := hi.length ▸ (List.getElem?_eq_some_iff.mp hk).1
  have hset : ∀ pc', (s.callers.set k pc').length = callers := fun pc' => by rw [List.length_set, hi.length]
  cases pc with
  | idle | overflow message i => simp only [send, reduceCtorEq] at h
  | test message i =>
    simp only [send] at h
    split at h
    · obtain ⟨n, -, h⟩ := Option.bind_eq_some_iff.mp h
      obtain rfl := Option.some.inj h
      exact ⟨hset _, hi.called, hi.pushed⟩
    · obtain rfl := Option.some.inj h
      exact ⟨hset _, hi.called, hi.pushed⟩
  | slot message i =>
    obtain ⟨m, -, h⟩ := Option.bind_eq_some_iff.mp h
    obtain rfl := Option.some.inj h
    exact ⟨hset _, hi.called, hi.pushed⟩
  | locked message i =>
    obtain ⟨packet, -, h⟩ := Option.bind_eq_some_iff.mp h
    obtain rfl := Option.some.inj h
    refine ⟨hset _, hi.called, fun x hx => (List.mem_append.mp hx).elim (hi.pushed x) fun hx => ?_⟩
    obtain rfl := List.mem_singleton.mp hx
    exact hlt
  | pushed message i | unlocked message i | next message i =>
    obtain rfl := Option.some.inj h
    exact ⟨hset _, hi.called, hi.pushed⟩

theorem step_numbered {e : Event} (hi : s.Numbered callers) (h : s.step host e = some s') :
    s'.Numbered callers := by
  cases e with
  | call k message =>
    obtain ⟨pc, hk, h⟩ := Option.bind_eq_some_iff.mp h
    obtain ⟨-, rfl⟩ := call_eq h
    refine ⟨(List.length_set ..).trans hi.length, fun x hx => ?_, hi.pushed⟩
    refine (List.mem_append.mp hx).elim (hi.called x) fun hx => ?_
    obtain rfl := List.mem_singleton.mp hx
    exact hi.length ▸ (List.getElem?_eq_some_iff.mp hk).1
  | send k memory =>
    obtain ⟨pc, hk, h⟩ := Option.bind_eq_some_iff.mp h
    exact send_numbered hi hk h
  | sender k stack | arrive source datagram buf | receiver | consumer =>
    obtain ⟨hcallers, hcalled, hpushed⟩ := step_callers h rfl
    exact ⟨hcallers ▸ hi.length, hcalled ▸ hi.called, hpushed ▸ hi.pushed⟩

theorem numbered (h : run (step host) (chatter isClient memory resolved callers) evs = some s) :
    s.Numbered callers := by
  refine run_induction (I := Numbered callers) (fun hi hs => step_numbered hi hs) ?_ h
  cases isClient <;>
    exact ⟨List.length_replicate, fun x hx => absurd hx List.not_mem_nil,
      fun x hx => absurd hx List.not_mem_nil⟩

/-- With a single caller, what is called and pushed is by it. -/
theorem by_single_caller (h : run (step host) (chatter isClient memory resolved 1) evs = some s) :
    s.calledBy 0 = s.called.map Prod.snd ∧ s.pushedBy 0 = s.pushed.map Prod.snd := by
  have hn := numbered h
  constructor
  · rw [calledBy, List.filter_eq_self.mpr fun x hx => by simpa using hn.called x hx]
  · rw [pushedBy, List.filter_eq_self.mpr fun x hx => by simpa using hn.pushed x hx]

/-- What a thread has pushed once its calls have returned: what `Ldp.send` makes of
its messages, in some memory. -/
theorem pushedBy_eq_send (h : run (step host) (chatter isClient memory resolved callers) evs = some s)
    (hk : s.callers[k]? = some .idle) :
    ∃ (calls : List ((Nat → LDPPacket) × List UInt8)) (packets : List (List LDPPacket)),
      calls.map Prod.snd = s.calledBy k ∧
      calls.mapM (fun c => Ldp.send c.1 c.2 0) = some packets ∧ packets.flatten = s.pushedBy k := by
  obtain ⟨-, returned, groups, part, hc, hp, hs, rfl⟩ := callers_progress h k _ hk
  simp only [SendPc.current, Option.map_none, Option.toList_none, List.append_nil] at hc hp
  rw [hc, hp]
  clear hc hp
  induction hs with
  | nil => exact ⟨[], [], rfl, rfl, rfl⟩
  | @cons message packets returned groups hm _ ih =>
    obtain ⟨calls, packets', h1, h2, h3⟩ := ih
    obtain ⟨m, hm⟩ := hm.exists_memory
    refine ⟨(m, message) :: calls, packets :: packets', by simp [h1], ?_, by simp [h3]⟩
    simp [List.mapM_cons, hm, h2]

/-- The messages of a thread can be read back from the payloads that it has pushed,
once its calls have returned. -/
theorem messages_pushedBy (h : run (step host) (chatter isClient memory resolved callers) evs = some s)
    (hk : s.callers[k]? = some .idle) (hm : ∀ m ∈ s.calledBy k, 0 ∉ m ∧ m.length + 8 ≤ INT_MAX) :
    Framing.messages 0 ((s.pushedBy k).map (·.payload.toList)) = s.calledBy k := by
  obtain ⟨calls, packets, hc, hs, hp⟩ := pushedBy_eq_send h hk
  obtain ⟨packets', hs', -, hf⟩ := mapM_send_frames fun c hcm =>
    hm c.2 (hc ▸ List.mem_map_of_mem hcm)
  obtain rfl := Option.some.inj (hs.symm.trans hs')
  rw [← hp, ← hc, List.map_flatten]
  exact Framing.messages_flatten hf

end Endpoint
end Ldp
