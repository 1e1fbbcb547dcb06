import Ldp.Proof.NulBytes
import Ldp.Proof.Quiescence
import Ldp.Session

/-!
# From standard input to standard output

The chat of a session runs as a chat, and each of its programs as a chatter (`chat_step`,
`chatter_step`), so what holds of those holds in every session: standard input is sent line
by line (`readsLines`), and what is printed are the strings delivered, in blocks of nine
bytes (`stdout_eq`). As long as no loop begins a pass at the end of its standard input, a
session has a bounded number of steps to go and comes to rest, and then the lines typed on
one side can be read off the blocks printed on the other (`session_transmits`).
-/

namespace Ldp

open Framework

namespace Endpoint

variable {host : ByteOrder} {s s' : Endpoint}

/-- A step delivers nothing or, if it is one of the consumer, one string. -/
theorem step_delivered {e : Event} (h : s.step host e = some s') :
    s'.delivered = s.delivered ∨ e = .consumer ∧ ∃ message, s'.delivered = s.delivered ++ [message] := by
  cases e with
  | call k message =>
    obtain ⟨pc, -, h⟩ := Option.bind_eq_some_iff.mp h
    obtain ⟨-, rfl⟩ := call_eq h
    exact .inl rfl
  | send k memory =>
    obtain ⟨pc, -, h⟩ := Option.bind_eq_some_iff.mp h
    obtain ⟨_, _, _, _, _, _, rfl⟩ := send_eq h
    exact .inl rfl
  | sender k stack =>
    obtain ⟨pc, -, h⟩ := Option.bind_eq_some_iff.mp h
    obtain ⟨_, _, _, _, _, _, rfl, -⟩ := ldpPacketSender_eq h
    exact .inl rfl
  | arrive source datagram buf =>
    obtain ⟨-, rfl⟩ := arrive_eq.mp h
    exact .inl rfl
  | receiver =>
    obtain ⟨_, _, _, _, _, _, rfl⟩ := ldpPacketReceiver_eq h
    exact .inl rfl
  | consumer =>
    replace h : s.messageConsumer s.consumer = some s' := h
    cases hc : s.consumer with
    | wait | slot =>
      rw [hc] at h
      obtain ⟨_, -, h⟩ := Option.bind_eq_some_iff.mp h
      obtain rfl := Option.some.inj h
      exact .inl rfl
    | locked =>
      simp only [hc, messageConsumer] at h
      split at h
      · simp only [reduceCtorEq] at h
      · obtain rfl := Option.some.inj h
        exact .inl rfl
    | popped message | unlocked message =>
      rw [hc] at h
      obtain rfl := Option.some.inj h
      exact .inl rfl
    | deliver message =>
      rw [hc] at h
      obtain rfl := Option.some.inj h
      exact .inr ⟨rfl, message, rfl⟩

end Endpoint

namespace Chat

variable {net : Network} {c c' : Chat}

theorem delivered_append {e : Event} (h : step net c e = some c') (side : Side) :
    ∃ more, (c'.endpoint side).delivered = (c.endpoint side).delivered ++ more := by
  have hstep : ∀ {ev}, (c.endpoint side).step net.host ev = some (c'.endpoint side) →
      ∃ more, (c'.endpoint side).delivered = (c.endpoint side).delivered ++ more := fun he => by
    rcases Endpoint.step_delivered he with he | ⟨-, message, he⟩
    · exact ⟨[], by rw [he, List.append_nil]⟩
    · exact ⟨[message], he⟩
  rcases step_cases h side with he | ⟨ev, -, -, he⟩ | ⟨d, buf, -, he⟩
  · exact ⟨[], by rw [he, List.append_nil]⟩
  · exact hstep he
  · exact hstep he

theorem call_delivered {x : Side} {k : Nat} {message : List UInt8}
    (h : step net c (.act x (.call k message)) = some c') (side : Side) :
    (c'.endpoint side).delivered = (c.endpoint side).delivered := by
  obtain ⟨-, s, hs, rfl⟩ := act_eq h
  by_cases hx : side = x
  · subst hx
    obtain ⟨pc, -, hs⟩ := Option.bind_eq_some_iff.mp hs
    obtain ⟨-, rfl⟩ := Endpoint.call_eq hs
    simp only [Function.update_self]
  · simp only [Function.update_of_ne hx]

end Chat

namespace Chatter

variable {host : ByteOrder} {c : Chatter} {content : List UInt8} {lines : List (List UInt8)}
  {isClient : Bool} {memory resolved : Sockaddr} {evs : List Endpoint.Event}

/-- No line that is read is too long for the loop index of `send`. -/
theorem ReadsLines.short (h : c.ReadsLines content lines) : c.ldp.Short := by
  intro x hx
  have hx : x.2 ∈ c.messages := List.mem_map_of_mem hx
  rw [h.2] at hx
  obtain ⟨line, hline, he⟩ := List.mem_map.mp hx
  have hlen := (h.1.of_mem (by decide) line hline).2.1
  have hcut := Framing.length_cut_le 0 line
  rw [he] at hcut
  exact Nat.le_trans (Nat.add_le_add_right (hcut.trans hlen) 8) (by decide)

/-- Once its endpoint has finished, the loop is between two passes. -/
theorem ReadsLines.callers_eq (h : c.ReadsLines content lines)
    (hrun : run (Endpoint.step host) (.chatter isClient memory resolved 1) evs = some c.ldp)
    (hf : c.ldp.Finished) : c.ldp.callers = [.idle] := by
  have hidle := hf.idle h.short hrun
  obtain ⟨pc, hpc⟩ := List.length_eq_one_iff.mp (Endpoint.numbered hrun).length
  rw [hpc, hidle pc (hpc ▸ List.mem_singleton.mpr rfl)]

/-- The lines can then be read back from the payloads that it has pushed. -/
theorem ReadsLines.messages_pushedPayloads (h : c.ReadsLines content lines)
    (hrun : run (Endpoint.step host) (.chatter isClient memory resolved 1) evs = some c.ldp)
    (hf : c.ldp.Finished) : Framing.messages 0 c.ldp.pushedPayloads = lines.map (Framing.cut 0) := by
  obtain ⟨hcalled, hpushed⟩ := Endpoint.by_single_caller hrun
  have hcalled' : c.ldp.calledBy 0 = lines.map (Framing.cut 0) := hcalled.trans h.2
  have hk : c.ldp.callers[0]? = some .idle := by rw [h.callers_eq hrun hf]; rfl
  have hread := Endpoint.messages_pushedBy hrun hk fun m hmem => ⟨?_, ?_⟩
  · rw [hcalled', hpushed, List.map_map] at hread
    exact hread
  · obtain ⟨line, -, rfl⟩ := List.mem_map.mp (hcalled' ▸ hmem)
    exact Framing.not_mem_cut 0 line
  · obtain ⟨x, hx, rfl⟩ := List.mem_map.mp (hcalled ▸ hmem)
    exact h.short x hx

end Chatter

namespace Session

variable {net : Network} {s s' : Session} {party : Side → Party} {content : Side → List UInt8}
  {evs : List Event} {side : Side}

/-! ## The chat of a session -/

theorem pass_eq {message : Vector UInt8 MAXBUFLEN} (h : step net s (.pass side message) = some s') :
    ∃ string, stringOf (fgets message (s.stdin side)).1 = some string ∧
      s.chat.step net (.act side (.call 0 string)) = some s'.chat ∧
      s'.stdin = Function.update s.stdin side (fgets message (s.stdin side)).2 ∧ s'.stdout = s.stdout := by
  obtain ⟨string, hs, h⟩ := Option.bind_eq_some_iff.mp h
  obtain ⟨chat, hc, h⟩ := Option.bind_eq_some_iff.mp h
  obtain rfl := Option.some.inj h
  exact ⟨string, hs, hc, rfl, rfl⟩

/-- A call of `send` in a chat. -/
def isCall : Chat.Event → Bool
  | .act _ (.call ..) => true
  | _ => false

theorem chat_eq {e : Chat.Event} (h : step net s (.chat e) = some s') :
    isCall e = false ∧ s.chat.step net e = some s'.chat ∧ s'.stdin = s.stdin ∧
      s'.stdout = fun side => (passed s.chat s'.chat side).foldl printMessage (s.stdout side) := by
  cases e with
  | act side e =>
    cases e with
    | call k message => simp only [step, reduceCtorEq] at h
    | arrive source datagram buf =>
      simp only [step, Chat.step, Option.bind_eq_bind, Option.bind_none, reduceCtorEq] at h
    | send k memory | sender k stack | receiver | consumer =>
      obtain ⟨chat, hc, h⟩ := Option.bind_eq_some_iff.mp h
      obtain rfl := Option.some.inj h
      exact ⟨rfl, hc, rfl, rfl⟩
  | deliver side i buf | drop side i | duplicate side i =>
    obtain ⟨chat, hc, h⟩ := Option.bind_eq_some_iff.mp h
    obtain rfl := Option.some.inj h
    exact ⟨rfl, hc, rfl, rfl⟩

/-- A step of a session is one of its chat. -/
theorem chat_step {e : Event} (h : step net s e = some s') : ∃ ev, s.chat.step net ev = some s'.chat := by
  cases e with
  | pass side message =>
    obtain ⟨string, -, hc, -⟩ := pass_eq h
    exact ⟨_, hc⟩
  | chat e => exact ⟨e, (chat_eq h).2.1⟩

theorem chat_run (h : run (step net) (start party content) evs = some s) :
    ∃ evs', run (Chat.step net) (.start fun side => { party side with callers := 1 }) evs' = some s.chat :=
  run_map Session.chat (fun hs => .inr (chat_step hs)) h

/-! ## The programs of a session -/

/-- The program on a side, as a chatter by itself. -/
def chatter (s : Session) (side : Side) : Chatter := ⟨s.chat.endpoint side, s.stdin side⟩

/-- A step of an endpoint that is not a call is one of its chatter. -/
theorem ldp_step {e : Endpoint.Event} {ldp : Endpoint} (he : isCall (.act side e) = false)
    (h : (s.chat.endpoint side).step net.host e = some ldp) :
    (s.chatter side).step net.host (.ldp e) = some ⟨ldp, s.stdin side⟩ := by
  cases e with
  | call k message => exact absurd he.symm Bool.false_ne_true
  | send k memory | sender k stack | arrive source datagram buf | receiver | consumer =>
    exact Option.bind_eq_some_iff.mpr ⟨ldp, h, rfl⟩

/-- What happens in a session to the program of a side: nothing, a pass of its loop, or a step
of its endpoint. -/
theorem chatter_step {e : Event} (h : step net s e = some s') (side : Side) :
    s'.chatter side = s.chatter side ∨
      ∃ ev, (s.chatter side).step net.host ev = some (s'.chatter side) ∧
        (ev.isPass = true → ∃ message, e = .pass side message) := by
  cases e with
  | pass x message =>
    obtain ⟨string, hs, hc, hstdin, -⟩ := pass_eq h
    obtain ⟨-, ldp, hl, hchat⟩ := Chat.act_eq hc
    by_cases hx : side = x
    · subst hx
      refine .inr ⟨.pass message, ?_, fun _ => ⟨message, rfl⟩⟩
      simp only [chatter, hchat, hstdin, Function.update_self]
      exact Option.bind_eq_some_iff.mpr ⟨string, hs, Option.bind_eq_some_iff.mpr ⟨ldp, hl, rfl⟩⟩
    · refine .inl ?_
      simp only [chatter, hchat, hstdin, Function.update_of_ne hx]
  | chat e =>
    obtain ⟨hcall, hc, hstdin, -⟩ := chat_eq h
    rcases Chat.step_cases hc side with he | ⟨ev, rfl, -, he⟩ | ⟨d, buf, -, he⟩
    · exact .inl (by simp only [chatter, he, hstdin])
    · refine .inr ⟨.ldp ev, ?_, fun hp => absurd hp Bool.false_ne_true⟩
      rw [ldp_step hcall he, chatter, hstdin]
    · refine .inr ⟨.ldp (.arrive (net.address side.other) d.toList buf), ?_,
        fun hp => absurd hp Bool.false_ne_true⟩
      rw [ldp_step rfl he, chatter, hstdin]

/-- A session that begins no pass at the end of a standard input sends the lines that it reads,
each as far as its first NUL. -/
theorem readsLines (h : run (guarded (step net) BeforeEnd) (start party content) evs = some s) (side : Side) :
    ∃ lines, (s.chatter side).ReadsLines (content side) lines := by
  refine run_induction (I := fun s => ∃ lines, (s.chatter side).ReadsLines (content side) lines) ?_ ?_ h
  · rintro s e s' ⟨lines, hl⟩ hs
    obtain ⟨hok, hs⟩ := guarded_eq_some.mp hs
    rcases chatter_step hs side with he | ⟨ev, hev, hpass⟩
    · exact ⟨lines, he ▸ hl⟩
    · refine Chatter.step_readsLines hl (fun hp => ?_) hev
      obtain ⟨message, rfl⟩ := hpass hp
      exact hok
  · exact ⟨[], Chatter.construct_readsLines⟩

/-! ## What is printed -/

/-- The strings printed, as a reader of standard output can cut them out of it. -/
def printed (stdout : List UInt8) : List (List UInt8) := (Framing.chunks 9 stdout).map List.dropLast

theorem foldl_printMessage (stdout : List UInt8) (strings : List (List UInt8)) :
    strings.foldl printMessage stdout = stdout ++ (strings.map (· ++ [newline])).flatten := by
  induction strings generalizing stdout with
  | nil => simp
  | cons string strings ih =>
    rw [List.foldl_cons, ih, printMessage, List.map_cons, List.flatten_cons, ← List.append_assoc,
      ← List.append_assoc]

/-- Strings of eight bytes can be cut out of what is printed of them. -/
theorem printed_foldl {strings : List (List UInt8)} (h8 : ∀ m ∈ strings, m.length = 8) :
    printed (strings.foldl printMessage []) = strings := by
  rw [foldl_printMessage, List.nil_append, printed, Framing.chunks_flatten (by decide), List.map_map]
  · conv_rhs => rw [← List.map_id strings]
    exact List.map_congr_left fun m _ => List.dropLast_concat
  · intro block hblock
    obtain ⟨m, hm, rfl⟩ := List.mem_map.mp hblock
    rw [List.length_append, h8 m hm, List.length_singleton]

/-- Each standard output is what `printMessage` makes of the strings delivered there. -/
theorem stdout_eq (h : run (step net) (start party content) evs = some s) (side : Side) :
    s.stdout side = (s.chat.endpoint side).delivered.foldl printMessage [] := by
  refine run_induction
    (I := fun s => s.stdout side = (s.chat.endpoint side).delivered.foldl printMessage []) ?_ ?_ h
  · intro s e s' hi hs
    cases e with
    | pass x message =>
      obtain ⟨string, -, hc, -, hstdout⟩ := pass_eq hs
      rw [hstdout, Chat.call_delivered hc, hi]
    | chat e =>
      obtain ⟨-, hc, -, hstdout⟩ := chat_eq hs
      obtain ⟨more, hm⟩ := Chat.delivered_append hc side
      simp only [hstdout, passed, hm, List.drop_left, hi, List.foldl_append]
  · simp only [start, Chat.start]
    cases (party side).isClient <;> rfl

/-! ## Coming to rest -/

/-- A step of a thread, a delivery, or a pass of a loop. -/
def Event.isOwn : Event → Bool
  | .pass .. => true
  | .chat e => e.isOwn

/-- The work that an event brings: only drops and duplications bring some. -/
def Event.gain : Event → Nat
  | .pass .. => 0
  | .chat e => e.gain

/-- The work that is left, with what the characters still to be read will bring. -/
def work (s : Session) : Nat :=
  s.chat.work + 48 * ((s.stdin .left).length + (s.stdin .right).length)

theorem work_eq (s : Session) (side : Side) :
    s.work = s.chat.work + 48 * ((s.stdin side).length + (s.stdin side.other).length) := by
  cases side with
  | left => rfl
  | right =>
    rw [work, Nat.add_comm (s.stdin .left).length]
    rfl

/-- A pass takes at least one character off standard input, which bring more than the string
takes to send. -/
theorem pass_work {message : Vector UInt8 MAXBUFLEN} (hne : s.stdin side ≠ [])
    (h : step net s (.pass side message) = some s') : s'.work + 1 ≤ s.work := by
  obtain ⟨string, hs, hc, hstdin, -⟩ := pass_eq h
  have hw := Chat.step_work hc
  obtain ⟨hcut, hrest⟩ := stringOf_fgets_cut (s := message) (by decide) hne
  rw [hcut, Option.some.injEq] at hs
  have hlen := Framing.length_cut_le 0 (Lines.takeLine newline (MAXBUFLEN - 1) (s.stdin side))
  have hline : Lines.takeLine newline (MAXBUFLEN - 1) (s.stdin side) ≠ [] :=
    Lines.takeLine_ne_nil (by decide) hne
  have hpos := List.length_pos_iff.mpr hline
  have hle := (Lines.takeLine_initial newline (MAXBUFLEN - 1) (s.stdin side)).length_le
  rw [hs] at hlen
  rw [work_eq _ side, work_eq s side, hstdin, hrest, Function.update_self, Function.update_of_ne side.other_ne,
    List.length_drop]
  simp only [Chat.Event.gain, packetCount] at hw
  omega

theorem step_work {e : Event} (h : guarded (step net) BeforeEnd s e = some s') :
    s'.work + 1 ≤ s.work + e.gain := by
  obtain ⟨hok, h⟩ := guarded_eq_some.mp h
  cases e with
  | pass side message =>
    have hw := pass_work hok h
    simp only [Event.gain]
    omega
  | chat e =>
    obtain ⟨-, hc, hstdin, -⟩ := chat_eq h
    have hw := Chat.step_work hc
    simp only [work, hstdin, Event.gain]
    omega

theorem gain_of_isOwn {e : Event} (he : e.isOwn = true) : e.gain = 0 := by
  cases e with
  | pass side message => rfl
  | chat e => exact Chat.gain_of_isOwn he

theorem own_work {e : Event} (he : e.isOwn = true) (h : guarded (step net) BeforeEnd s e = some s') :
    s'.work + 1 ≤ s.work := by
  have hw := step_work h
  rwa [gain_of_isOwn he] at hw

theorem endpoint_run (h : run (guarded (step net) BeforeEnd) (start party content) evs = some s)
    (side : Side) :
    ∃ evs', run (Endpoint.step net.host) (.chatter (party side).isClient (party side).memory
      (party side).resolved 1) evs' = some (s.chat.endpoint side) := by
  obtain ⟨evs', hchat⟩ := chat_run (run_guarded.mp h).2
  exact Chat.endpoint_run hchat side

/-- Once its endpoint has finished, the loop of a program is between two passes. -/
theorem callers_eq (h : run (guarded (step net) BeforeEnd) (start party content) evs = some s) (side : Side)
    (hf : (s.chat.endpoint side).Finished) : (s.chat.endpoint side).callers = [.idle] := by
  obtain ⟨evs', hrun⟩ := endpoint_run h side
  obtain ⟨lines, hreads⟩ := readsLines h side
  exact hreads.callers_eq hrun hf

/-- Then it can begin another, as long as there is something to read. -/
theorem exists_pass (hcallers : (s.chat.endpoint side).callers = [.idle]) (hne : s.stdin side ≠ [])
    (message : Vector UInt8 MAXBUFLEN) : ∃ s', step net s (.pass side message) = some s' := by
  obtain ⟨hs, -⟩ := stringOf_fgets_cut (s := message) (by decide) hne
  obtain ⟨ldp, hl⟩ : ∃ ldp, (s.chat.endpoint side).step net.host
      (.call 0 (Framing.cut 0 (Lines.takeLine newline (MAXBUFLEN - 1) (s.stdin side)))) = some ldp := by
    simp only [Endpoint.step, hcallers, List.getElem?_cons_zero, Option.bind_some, Endpoint.call,
      Option.some.injEq, exists_eq']
  simp only [step, hs, Chat.step, hl, Option.bind_eq_bind, Option.bind_some, Option.some.injEq, exists_eq']

/-- Nothing is left to do in the chat, and standard input is at its end on both sides. -/
def Quiet (s : Session) : Prop := s.chat.Quiet ∧ ∀ side, s.stdin side = []

/-- A step of the chat that cannot happen in the session cannot happen in the chat. -/
theorem chat_none {e : Chat.Event} (he : e.isOwn = true) :
    guarded (step net) BeforeEnd s (.chat e) = none ↔ s.chat.step net e = none := by
  rw [guarded, if_pos (show s.BeforeEnd (.chat e) from trivial)]
  cases e with
  | act side e =>
    cases e with
    | call k message => exact absurd he Bool.false_ne_true
    | arrive source datagram buf => exact iff_of_true rfl rfl
    | send k memory | sender k stack | receiver | consumer =>
      simp only [step, Option.bind_eq_bind, Option.bind_eq_none_iff, reduceCtorEq, imp_false,
        ← Option.eq_none_iff_forall_ne_some]
  | deliver side i buf =>
    simp only [step, Option.bind_eq_bind, Option.bind_eq_none_iff, reduceCtorEq, imp_false,
      ← Option.eq_none_iff_forall_ne_some]
  | drop side i | duplicate side i => exact absurd he Bool.false_ne_true

/-- A session is at rest exactly where it is quiet. -/
theorem atRest_iff (h : run (guarded (step net) BeforeEnd) (start party content) evs = some s) :
    AtRest (guarded (step net) BeforeEnd) (·.isOwn = true) s ↔ s.Quiet := by
  obtain ⟨evs', hchat⟩ := chat_run (run_guarded.mp h).2
  constructor
  · intro hrest
    have hq := Chat.quiet_of_atRest hchat fun e he => (chat_none he).mp (hrest (.chat e) he)
    refine ⟨hq, fun side => ?_⟩
    by_contra hne
    obtain ⟨s', hs'⟩ : ∃ s', step net s (.pass side Chatter.blankArray) = some s' :=
      exists_pass (callers_eq h side (hq side).1) hne Chatter.blankArray
    have hnone := hrest (.pass side Chatter.blankArray) rfl
    rw [guarded, if_pos (show s.BeforeEnd (.pass side Chatter.blankArray) from hne), hs'] at hnone
    simp only [reduceCtorEq] at hnone
  · rintro ⟨hq, hend⟩ e he
    cases e with
    | pass side message => exact if_neg fun hne => hne (hend side)
    | chat e => exact (chat_none he).mpr (Chat.atRest_of_quiet hchat hq e he)

/-! ## What has been transmitted then -/

theorem printed_eq (h : run (guarded (step net) BeforeEnd) (start party content) evs = some s) (side : Side)
    (hq : s.Quiet) (hf : net.faults = .none)
    (hdest : ∀ x ∈ (s.chat.endpoint side).sent, x.dest = net.address side.other) :
    printed (s.stdout side.other) = (s.chat.endpoint side).pushedPayloads := by
  obtain ⟨evs', hchat⟩ := chat_run (run_guarded.mp h).2
  have hd := hq.1.delivered_eq hchat hf hdest
  rw [stdout_eq (run_guarded.mp h).2, hd, printed_foldl]
  intro m hm
  obtain ⟨x, -, rfl⟩ := List.mem_map.mp hm
  exact Vector.length_toList ..

/-- In every run of a session that begins no pass at the end of a standard input: its steps are
no more than 48 for each character of the two contents, and what drops and duplications
bring; left to itself it comes to rest, where both contents are read; and then, without
faults, the lines of the content of a side whose datagrams went to the other can be read off
the standard output of the other, each as far as its first NUL, and so can the content, if
and only if it has no NUL. -/
theorem session_transmits (h : run (guarded (step net) BeforeEnd) (start party content) evs = some s) :
    evs.length + s.work ≤ 48 * ((content .left).length + (content .right).length) + (evs.map Event.gain).sum ∧
    (∃ own t, (∀ e ∈ own, e.isOwn = true) ∧ run (guarded (step net) BeforeEnd) s own = some t ∧ t.Quiet) ∧
    (AtRest (guarded (step net) BeforeEnd) (·.isOwn = true) s ↔ s.Quiet) ∧
    (s.Quiet → net.faults = .none → ∀ side,
      (∀ x ∈ (s.chat.endpoint side).sent, x.dest = net.address side.other) →
      ∃ lines, Lines.Reads newline (MAXBUFLEN - 1) (content side) lines [] ∧
        Framing.messages 0 (printed (s.stdout side.other)) = lines.map (Framing.cut 0) ∧
        ((Framing.messages 0 (printed (s.stdout side.other))).flatten = content side ↔ 0 ∉ content side)) := by
  refine ⟨?_, ?_, atRest_iff h, fun hq hf side hdest => ?_⟩
  · have hall : ∀ e ∈ evs, True := fun _ _ => trivial
    have hlen := length_add_work_le (fun _ hs => step_work hs) hall h
    have hstart : (start party content).work = 48 * ((content .left).length + (content .right).length) := by
      simp only [work, start, Chat.start_work, Nat.zero_add]
    rwa [hstart] at hlen
  · have hstep : ∀ {s e s'}, e.isOwn = true → guarded (step net) BeforeEnd s e = some s' →
        s'.work + 1 ≤ s.work := fun he hs => own_work he hs
    obtain ⟨own, t, hown, ht, hrest⟩ := exists_run_to_rest hstep s
    exact ⟨own, t, hown, ht, (atRest_iff (run_append_of h ht)).mp hrest⟩
  · obtain ⟨lines, hlines⟩ := readsLines h side
    have hreads : Lines.Reads newline (MAXBUFLEN - 1) (content side) lines [] := by
      rw [← show (s.chatter side).stdin = [] from hq.2 side]
      exact hlines.1
    have hcontent : lines.flatten = content side := (List.append_nil _).symm.trans hreads.flatten
    obtain ⟨evs', hrun⟩ := endpoint_run h side
    have hread : Framing.messages 0 (s.chat.endpoint side).pushedPayloads = lines.map (Framing.cut 0) :=
      hlines.messages_pushedPayloads hrun (hq.1 side).1
    rw [← printed_eq h side hq hf hdest] at hread
    refine ⟨lines, hreads, hread, ?_⟩
    rw [hread, ← hcontent]
    exact Framing.flatten_map_cut_iff

/-- The line `hi`, typed by the client. -/
def hiContent : Side → List UInt8
  | .left => [104, 105, 10]
  | .right => []

theorem session_transmits_hi :
    ∃ evs s, run (guarded (step Chat.hiNetwork) BeforeEnd) (start Chat.hiParty hiContent) evs = some s ∧
      s.Quiet ∧ evs.length ≤ 144 ∧
      (Framing.messages 0 (printed (s.stdout .right))).flatten = [104, 105, 10] := by
  have h0 : run (guarded (step Chat.hiNetwork) BeforeEnd) (start Chat.hiParty hiContent) [] = _ := rfl
  obtain ⟨-, ⟨evs, s, hown, hs, hq⟩, -⟩ := session_transmits h0
  obtain ⟨hlen, -, -, hread⟩ := session_transmits hs
  obtain ⟨evs', hchat⟩ := chat_run (run_guarded.mp hs).2
  obtain ⟨lines, -, -, hiff⟩ := hread hq rfl .left
    (Chat.dest_of_addresses hchat (Chat.addresses_of_start rfl))
  have hgain : (evs.map Event.gain).sum = 0 :=
    List.sum_eq_zero (List.forall_mem_map.mpr fun e he => gain_of_isOwn (hown e he))
  have hcontent : 48 * ((hiContent .left).length + (hiContent .right).length) = 144 := by decide
  exact ⟨evs, s, hs, hq, by omega, hiff.mpr (by decide)⟩

end Session
end Ldp
