import Ldp.Console
import Ldp.Proof.Noise
import Ldp.Proof.Transmission

/-!
# Reading a standard output

What a program writes is a log of the strings delivered, each in two parts, and of the reports of
corrupted packets (`Wrote`, `step_wrote`). The strings are all there, in order, and every
corrupted packet is reported; and standard output can be read, byte by byte, as those strings and
reports, as long as no report comes in the middle of `printMessage` (`console_output`).
-/

namespace Ldp

open Framework

namespace NoisyChat

variable {net : Network} {c c' : Chat}

/-- What a step delivers or receives on a side: nothing, a string if it is one of the consumer
there, or a packet if it is a delivery there. -/
theorem step_outputs {e : Event} (h : step net c e = some c') (side : Side) :
    ((c'.endpoint side).delivered = (c.endpoint side).delivered ∧
        (c'.endpoint side).received = (c.endpoint side).received) ∨
      (e = .chat (.act side .consumer) ∧
        (∃ m, (c'.endpoint side).delivered = (c.endpoint side).delivered ++ [m]) ∧
        (c'.endpoint side).received = (c.endpoint side).received) ∨
      (∃ i buf, e = .chat (.deliver side i buf)) ∧
        (c'.endpoint side).delivered = (c.endpoint side).delivered ∧
        ∃ x, (c'.endpoint side).received = (c.endpoint side).received ++ [x] := by
  cases e with
  | chat e =>
    cases e with
    | act x ev =>
      obtain ⟨he, s, hs, rfl⟩ := Chat.act_eq h
      have hreceived := (Endpoint.step_received hs he).1
      rcases side.eq_or_eq_other x with rfl | rfl
      · dsimp only
        rw [Function.update_self]
        rcases Endpoint.step_delivered hs with hd | ⟨rfl, m, hd⟩
        · exact .inl ⟨hd, hreceived⟩
        · exact .inr (.inl ⟨rfl, ⟨m, hd⟩, hreceived⟩)
      · exact .inl (by simp only [Function.update_of_ne x.other_ne, and_self])
    | deliver x i buf =>
      obtain ⟨-, d, s, -, hs, rfl⟩ := Chat.deliver_eq h
      obtain ⟨-, rfl⟩ := Endpoint.arrive_eq.mp hs
      rcases side.eq_or_eq_other x with rfl | rfl
      · dsimp only
        rw [Function.update_self]
        exact .inr (.inr ⟨⟨i, buf, rfl⟩, rfl, _, rfl⟩)
      · exact .inl (by simp only [Function.update_of_ne x.other_ne, and_self])
    | drop x i =>
      obtain ⟨-, rfl⟩ := Chat.drop_eq h
      exact .inl ⟨rfl, rfl⟩
    | duplicate x i =>
      obtain ⟨-, d, -, rfl⟩ := Chat.duplicate_eq h
      exact .inl ⟨rfl, rfl⟩
  | alter x i d =>
    obtain rfl := Option.some.inj h
    exact .inl ⟨rfl, rfl⟩

end NoisyChat

namespace Console

variable {net : Network} {s s' t : Console} {party : Side → Party} {content : Side → List UInt8}
  {evs : List Event} {side : Side}

/-! ## Steps -/

theorem pass_eq {message : Vector UInt8 MAXBUFLEN} (h : step net s (.pass side message) = some s') :
    ∃ string, s.chat.step net (.act side (.call 0 string)) = some s'.chat ∧
      s'.writes = s.writes ∧ s'.printing = s.printing ∧ s'.reporting = s.reporting := by
  obtain ⟨string, -, h⟩ := Option.bind_eq_some_iff.mp h
  obtain ⟨chat, hc, h⟩ := Option.bind_eq_some_iff.mp h
  obtain rfl := Option.some.inj h
  exact ⟨string, hc, rfl, rfl, rfl⟩

theorem chat_eq {e : NoisyChat.Event} (h : step net s (.chat e) = some s') :
    s.busy e = false ∧ NoisyChat.step net s.chat e = some s'.chat ∧
      s'.writes = (fun side => s.writes side ++ (Session.passed s.chat s'.chat side).map .first) ∧
      s'.printing = (fun side => s.printing side || !(Session.passed s.chat s'.chat side).isEmpty) ∧
      s'.reporting = fun side => s.reporting side || (received s.chat s'.chat side).any (·.2.isCorrupted) := by
  have hstep : s.chatStep net e = some s' := by
    cases e with
    | alter side i d => exact h
    | chat e =>
      cases e with
      | deliver side i buf | drop side i | duplicate side i => exact h
      | act side e =>
        cases e with
        | call k message => cases h
        | send k memory | sender k stack | arrive source datagram buf | receiver | consumer => exact h
  obtain ⟨hb, hstep⟩ := Option.ite_none_left_eq_some.mp hstep
  obtain ⟨chat, hc, hstep⟩ := Option.bind_eq_some_iff.mp hstep
  obtain rfl := Option.some.inj hstep
  exact ⟨Bool.not_eq_true _ ▸ hb, hc, rfl, rfl, rfl⟩

/-! ## What is written -/

/-- From `s` to `s'`, `w` is written on `side`: the strings delivered, and reports of the
corrupted packets received. -/
structure Wrote (s s' : Console) (side : Side) (w : List Write) : Prop where
  writes : s'.writes side = s.writes side ++ w
  log : run SharedLog.step (s.printing side) w = some (s'.printing side)
  delivered : (s'.chat.endpoint side).delivered = (s.chat.endpoint side).delivered ++ SharedLog.firsts w
  reported : (SharedLog.wholes w).length + (s'.reporting side).toNat +
      (s.chat.endpoint side).received.countP (·.2.isCorrupted) =
    (s.reporting side).toNat + (s'.chat.endpoint side).received.countP (·.2.isCorrupted)

theorem Wrote.refl (s : Console) (side : Side) : Wrote s s side [] :=
  ⟨(List.append_nil _).symm, rfl, (List.append_nil _).symm, by
    rw [SharedLog.wholes, List.filterMap_nil, List.length_nil, Nat.zero_add]⟩

theorem Wrote.trans {w w' : List Write} (h : Wrote s s' side w) (h' : Wrote s' t side w') :
    Wrote s t side (w ++ w') where
  writes := by rw [h'.writes, h.writes, List.append_assoc]
  log := run_append_of h.log h'.log
  delivered := by rw [h'.delivered, h.delivered, SharedLog.firsts_append, List.append_assoc]
  reported := by
    have hw := h.reported
    have hw' := h'.reported
    rw [SharedLog.wholes_append, List.length_append]
    omega

/-- Where nothing of the side changes that has to do with its writes, nothing is written. -/
theorem Wrote.of_eq (hw : s'.writes side = s.writes side) (hp : s'.printing side = s.printing side)
    (hr : s'.reporting side = s.reporting side)
    (hd : (s'.chat.endpoint side).delivered = (s.chat.endpoint side).delivered)
    (hreceived : (s'.chat.endpoint side).received = (s.chat.endpoint side).received) : Wrote s s' side [] where
  writes := hw.trans (List.append_nil _).symm
  log := by rw [hp]; rfl
  delivered := hd.trans (List.append_nil _).symm
  reported := by
    rw [hr, hreceived, SharedLog.wholes, List.filterMap_nil, List.length_nil, Nat.zero_add]

/-- What a step writes on a side. It disturbs what is written there exactly if it reports a packet
in the middle of `printMessage`. -/
theorem step_wrote {e : Event} (h : step net s e = some s') (side : Side) :
    ∃ w, Wrote s s' side w ∧
      (Undisturbed side s e ↔ AllSteps SharedLog.step SharedLog.Undisturbed (s.printing side) w) := by
  cases e with
  | pass x message =>
    obtain ⟨string, hc, hw, hp, hr⟩ := pass_eq h
    have hreceived := NoisyChat.step_outputs (e := .chat (.act x (.call 0 string))) hc side
    refine ⟨[], .of_eq (by rw [hw]) (by rw [hp]) (by rw [hr]) (Chat.call_delivered hc side) ?_,
      iff_of_true trivial trivial⟩
    rcases hreceived with ⟨-, hreceived⟩ | ⟨-, -, hreceived⟩ | ⟨⟨i, buf, he⟩, -⟩
    · exact hreceived
    · exact hreceived
    · cases he
  | endl x =>
    obtain ⟨hp, h⟩ := Option.ite_none_right_eq_some.mp h
    obtain rfl := Option.some.inj h
    rcases side.eq_or_eq_other x with rfl | rfl
    · refine ⟨[.second], ⟨Function.update_self .., ?_, (List.append_nil _).symm, ?_⟩,
        iff_of_true trivial ⟨trivial, fun _ _ => trivial⟩⟩
      · simp only [hp, Function.update_self]
        rfl
      · rw [show SharedLog.wholes [(.second : Write)] = [] from rfl, List.length_nil, Nat.zero_add]
    · exact ⟨[], .of_eq (Function.update_of_ne x.other_ne ..) (Function.update_of_ne x.other_ne ..) rfl rfl rfl,
        iff_of_true trivial trivial⟩
  | report x =>
    obtain ⟨hr, h⟩ := Option.ite_none_right_eq_some.mp h
    obtain rfl := Option.some.inj h
    rcases side.eq_or_eq_other x with rfl | rfl
    · refine ⟨[.whole ()], ⟨Function.update_self .., ?_, (List.append_nil _).symm, ?_⟩, ?_⟩
      · cases hp : s.printing side <;> simp [run, SharedLog.step]
      · simp only [hr, Function.update_self]
        rfl
      · simp only [Undisturbed, forall_const, AllSteps, SharedLog.Undisturbed, implies_true, and_true]
    · exact ⟨[], .of_eq (Function.update_of_ne x.other_ne ..) rfl (Function.update_of_ne x.other_ne ..) rfl rfl,
        iff_of_true (fun he => absurd he.symm x.other_ne) trivial⟩
  | chat e =>
    obtain ⟨hb, hc, hw, hp, hr⟩ := chat_eq h
    rcases NoisyChat.step_outputs hc side with ⟨hd, hreceived⟩ | ⟨rfl, ⟨m, hd⟩, hreceived⟩ |
      ⟨⟨i, buf, rfl⟩, hd, x, hreceived⟩
    · refine ⟨[], .of_eq ?_ ?_ ?_ hd hreceived, iff_of_true trivial trivial⟩
      · simp only [hw, Session.passed, hd, List.drop_length, List.map_nil, List.append_nil]
      · simp only [hp, Session.passed, hd, List.drop_length, List.isEmpty_nil, Bool.not_true, Bool.or_false]
      · simp only [hr, received, hreceived, List.drop_length, List.any_nil, Bool.or_false]
    · have hprinting : s.printing side = false := hb
      refine ⟨[.first m], ⟨?_, ?_, hd, ?_⟩, iff_of_true trivial ⟨trivial, fun _ _ => trivial⟩⟩
      · simp only [hw, Session.passed, hd, List.drop_left, List.map_cons, List.map_nil]
      · simp only [hp, Session.passed, hd, List.drop_left, hprinting]
        rfl
      · simp only [hr, received, hreceived, List.drop_length, List.any_nil, Bool.or_false]
        rw [show SharedLog.wholes [(.first m : Write)] = [] from rfl, List.length_nil, Nat.zero_add]
    · have hreporting : s.reporting side = false := hb
      refine ⟨[], ⟨?_, ?_, hd.trans (List.append_nil _).symm, ?_⟩, iff_of_true trivial trivial⟩
      · simp only [hw, Session.passed, hd, List.drop_length, List.map_nil]
      · simp only [hp, Session.passed, hd, List.drop_length, List.isEmpty_nil, Bool.not_true, Bool.or_false]
        rfl
      · simp only [hr, received, hreceived, List.drop_left, hreporting, List.any_cons, List.any_nil, Bool.or_false,
          Bool.false_or, List.countP_append, countP_singleton, SharedLog.wholes, List.filterMap_nil,
          List.length_nil, Bool.toNat_false]
        omega

/-- What a run writes. -/
theorem run_wrote (h : run (step net) s evs = some t) (side : Side) :
    ∃ w, Wrote s t side w ∧
      (AllSteps (step net) (Undisturbed side) s evs ↔
        AllSteps SharedLog.step SharedLog.Undisturbed (s.printing side) w) := by
  induction evs generalizing s with
  | nil =>
    obtain rfl := Option.some.inj h
    exact ⟨[], .refl s side, Iff.rfl⟩
  | cons e evs ih =>
    obtain ⟨s', hs', ht⟩ := run_cons_eq_some.mp h
    obtain ⟨w, hw, hstep⟩ := step_wrote hs' side
    obtain ⟨w', hw', hrest⟩ := ih ht
    refine ⟨w ++ w', hw.trans hw', ?_⟩
    simp only [AllSteps, hstep, hs', Option.some.injEq, forall_eq', hrest, allSteps_append, hw.log]

/-- The writes of a side are a log of the strings delivered and of reports of the corrupted packets
received. -/
theorem log_run (h : run (step net) (start party content) evs = some s) (side : Side) :
    run SharedLog.step false (s.writes side) = some (s.printing side) ∧
      SharedLog.firsts (s.writes side) = (s.chat.endpoint side).delivered ∧
      (SharedLog.wholes (s.writes side)).length + (s.reporting side).toNat =
        (s.chat.endpoint side).received.countP (·.2.isCorrupted) ∧
      (AllSteps (step net) (Undisturbed side) (start party content) evs ↔
        AllSteps SharedLog.step SharedLog.Undisturbed false (s.writes side)) := by
  obtain ⟨w, hw, hok⟩ := run_wrote h side
  have hstart : ((start party content).chat.endpoint side).delivered = [] ∧
      ((start party content).chat.endpoint side).received = [] := by
    simp only [start, Chat.start]
    cases (party side).isClient <;> exact ⟨rfl, rfl⟩
  have hwrites : s.writes side = w := hw.writes
  have hdelivered := hw.delivered
  have hreported := hw.reported
  rw [hstart.1, List.nil_append] at hdelivered
  rw [hstart.2, List.countP_nil, Nat.add_zero, show ((start party content).reporting side).toNat = 0 from rfl,
    Nat.zero_add] at hreported
  rw [hwrites]
  exact ⟨hw.log, hdelivered.symm, hreported, hok⟩

/-- The strings delivered are of eight bytes. -/
theorem length_delivered (h : run (step net) (start party content) evs = some s) (side : Side) :
    ∀ m ∈ (s.chat.endpoint side).delivered, m.length = 8 := by
  obtain ⟨evs', hchat⟩ : ∃ evs', run (NoisyChat.step net)
      (.start fun side => { party side with callers := 1 }) evs' = some s.chat :=
    run_map Console.chat (fun {s e s'} hs => by
      cases e with
      | pass side message =>
        obtain ⟨string, hc, -⟩ := pass_eq hs
        exact .inr ⟨.chat (.act side (.call 0 string)), hc⟩
      | endl side | report side =>
        obtain ⟨-, hs⟩ := Option.ite_none_right_eq_some.mp hs
        obtain rfl := Option.some.inj hs
        exact .inl rfl
      | chat e => exact .inr ⟨e, (chat_eq hs).2.1⟩) h
  intro m hm
  obtain ⟨x, -, rfl⟩ := List.mem_map.mp ((NoisyChat.delivered_sublist hchat side).subset hm)
  exact Vector.length_toList ..

/-! ## What is read -/

/-- The bytes of a string delivered or a report, in one piece. -/
def text (record : List UInt8 ⊕ Unit) : List UInt8 := (SharedLog.parts record).flatMap Write.text

/-- What a reader makes of the bytes: strings of eight, with a newline after them, and reports,
which do not have a newline there. -/
def readOutput (bytes : List UInt8) : List (List UInt8 ⊕ Unit) :=
  if bytes = [] then []
  else if bytes[8]? = some newline then .inl (bytes.take 8) :: readOutput (bytes.drop 9)
  else .inr () :: readOutput (bytes.drop 11)
termination_by bytes.length
decreasing_by all_goals
  rename_i hne _
  have hpos := List.length_pos_iff.mpr hne
  rw [List.length_drop]
  omega

/-- Strings of eight bytes and reports, each in one piece, can be read. -/
theorem readOutput_flatMap {records : List (List UInt8 ⊕ Unit)} (h8 : ∀ m, .inl m ∈ records → m.length = 8) :
    readOutput (records.flatMap text) = records := by
  induction records with
  | nil => rw [List.flatMap_nil, readOutput, if_pos rfl]
  | cons record records ih =>
    have hrest := ih fun m hm => h8 m (List.mem_cons_of_mem _ hm)
    cases record with
    | inl m =>
      have hm := h8 m List.mem_cons_self
      have htext : text (.inl m) = m ++ [newline] := by simp [text, SharedLog.parts, Write.text]
      rw [List.flatMap_cons, htext, readOutput, if_neg (by simp), if_pos, List.append_assoc,
        List.take_left' hm, ← List.append_assoc, List.drop_left' (by simp [hm]), hrest]
      rw [List.append_assoc, List.getElem?_append_right (by omega), hm]
      rfl
    | inr u =>
      have htext : text (.inr u) = [99, 111, 114, 114, 117, 112, 116, 105, 111, 110, newline] := rfl
      rw [List.flatMap_cons, htext, readOutput, if_neg (by simp), if_neg (by simp [newline]),
        List.drop_left' (by rfl), hrest]

/-- A string that has been delivered is in standard output, once, in order, and as one write,
followed by a newline in another; and every corrupted packet is reported. Each string is in one
piece with its newline exactly if no report comes in the middle of `printMessage`; and then both
can be read off standard output. -/
theorem console_output (h : run (step net) (start party content) evs = some s) (side : Side) :
    (s.writes side).filter SharedLog.Write.isPart ++ SharedLog.rest (s.printing side) =
        ((s.chat.endpoint side).delivered.flatMap fun m => SharedLog.parts (.inl m)) ∧
      (SharedLog.wholes (s.writes side)).length + (s.reporting side).toNat =
        (s.chat.endpoint side).received.countP (·.2.isCorrupted) ∧
      (AllSteps (step net) (Undisturbed side) (start party content) evs ↔
        ∃ records : List (List UInt8 ⊕ Unit),
          s.writes side ++ SharedLog.rest (s.printing side) = records.flatMap SharedLog.parts) ∧
      (AllSteps (step net) (Undisturbed side) (start party content) evs → s.printing side = false →
        (readOutput (s.stdout side)).filterMap Sum.getLeft? = (s.chat.endpoint side).delivered ∧
          ((readOutput (s.stdout side)).filterMap Sum.getRight?).length + (s.reporting side).toNat =
            (s.chat.endpoint side).received.countP (·.2.isCorrupted)) := by
  obtain ⟨hlog, hdelivered, hreported, hok⟩ := log_run h side
  have hrecords : AllSteps (step net) (Undisturbed side) (start party content) evs ↔ ∃ records :
      List (List UInt8 ⊕ Unit), s.writes side ++ SharedLog.rest (s.printing side) =
        records.flatMap SharedLog.parts := hok.trans (SharedLog.allSteps_iff hlog)
  refine ⟨?_, hreported, hrecords, fun hu hp => ?_⟩
  · rw [SharedLog.parts_eq hlog, hdelivered]
    rfl
  · obtain ⟨records, hr⟩ := hrecords.mp hu
    obtain ⟨hfirsts, hwholes⟩ := SharedLog.records_eq hr
    have hread : readOutput (s.stdout side) = records := by
      rw [hp, SharedLog.rest, List.append_nil] at hr
      rw [stdout, hr, List.flatMap_assoc]
      refine readOutput_flatMap fun m hm => length_delivered h side m ?_
      rw [← hdelivered, hfirsts]
      exact List.mem_filterMap.mpr ⟨_, hm, rfl⟩
    rw [hread, ← hdelivered, ← hreported, hfirsts, hwholes]
    exact ⟨rfl, rfl⟩

/-- The lines `hi` and `yo`, typed by the client. -/
def hiYoContent : Side → List UInt8
  | .left => [104, 105, 10, 121, 111, 10]
  | .right => []

/-- A line is read and sent. -/
def typed : List Event :=
  .pass .left Chatter.blankArray :: .replicate 7 (.chat (.chat (.act .left (.send 0 usedMemory)))) ++
    .replicate 5 (.chat (.chat (.act .left (.sender 1 blankBuffer))))

/-- Both are sent, and the datagram of the second is altered. The consumer begins to print the first
when the second arrives, and then `rest` is written. -/
def hiThenCorrupted (rest : List Event) : List Event :=
  typed ++ typed ++ [.chat (.alter .right 1 blankBuffer), .chat (.chat (.deliver .right 0 blankBuffer))] ++
    .replicate 5 (.chat (.chat (.act .right .receiver))) ++
    .replicate 6 (.chat (.chat (.act .right .consumer))) ++
    .chat (.chat (.deliver .right 0 blankBuffer)) :: rest

/-- The report comes after the newline of the string, which can be read. -/
theorem console_output_hi :
    ∃ s, run (step Chat.hiNetwork) (start Chat.hiParty hiYoContent)
        (hiThenCorrupted [.endl .right, .report .right]) = some s ∧
      s.stdout .right = [104, 105, 10, 0, 0, 88, 88, 88, 10] ++ text (.inr ()) ∧
      (readOutput (s.stdout .right)).filterMap Sum.getLeft? = [[104, 105, 10, 0, 0, 88, 88, 88]] := by
  obtain ⟨s, hs, hstdout, hwrites, hprinting, hdelivered⟩ : ∃ s,
      run (step Chat.hiNetwork) (start Chat.hiParty hiYoContent)
        (hiThenCorrupted [.endl .right, .report .right]) = some s ∧
      s.stdout .right = [104, 105, 10, 0, 0, 88, 88, 88, 10] ++ text (.inr ()) ∧
      s.writes .right = [.first [104, 105, 10, 0, 0, 88, 88, 88], .second, .whole ()] ∧
      s.printing .right = false ∧
      (s.chat.endpoint .right).delivered = [[104, 105, 10, 0, 0, 88, 88, 88]] :=
    ⟨_, rfl, by decide, rfl, rfl, by decide⟩
  obtain ⟨-, -, hiff, hread⟩ := console_output hs .right
  refine ⟨s, hs, hstdout, ?_⟩
  rw [← hdelivered]
  refine (hread (hiff.mpr ⟨[.inl [104, 105, 10, 0, 0, 88, 88, 88], .inr ()], ?_⟩) hprinting).1
  rw [hwrites, hprinting]
  rfl

/-- If it comes before, the string has no newline after it. -/
example : (run (step Chat.hiNetwork) (start Chat.hiParty hiYoContent)
    (hiThenCorrupted [.report .right, .endl .right])).map (·.stdout .right) =
      some ([104, 105, 10, 0, 0, 88, 88, 88] ++ text (.inr ()) ++ [10]) := by decide

end Console
end Ldp
