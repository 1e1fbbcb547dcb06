import Ldp.Chatter
import Ldp.Proof.Steps

/-!
# Standard input is sent once

As long as the loop of a chatter begins no pass at the end of standard input, the strings
that it passes to `sendMessage` are the lines read off it (`step_reads`): standard input in
order, without loss or repetition. A pass at its end sends what the array holds, the last
line again (`pass_at_end`). So standard input is sent once exactly in the runs without
such a pass (`stdin_sent_once_iff`).
-/

namespace Ldp

open Framework

/-- An array in which a list is stored. -/
theorem toList_ofFn_getD {n : Nat} (s : Vector UInt8 n) {l : List UInt8} (h : l.length ≤ n) :
    (Vector.ofFn fun i => l[i.val]?.getD (s.get i)).toList = l ++ s.toList.drop l.length := by
  apply List.ext_getElem
  · simp only [Vector.length_toList, List.length_append, List.length_drop]
    omega
  · intro i hi _
    rw [Vector.getElem_toList, Vector.getElem_ofFn]
    by_cases hl : i < l.length
    · simp only [hl, List.getElem_append_left, List.getElem?_eq_getElem, Option.getD_some]
    · have hle : l.length ≤ i := Nat.le_of_not_lt hl
      simp only [hle, List.getElem_append_right, List.getElem?_eq_none, Option.getD_none, List.getElem_drop,
        Vector.getElem_toList, Nat.add_sub_cancel']
      rfl

/-- The string of an array that begins with characters and a NUL. -/
theorem stringOf_eq {n : Nat} {s : Vector UInt8 n} {line rest : List UInt8} (h : s.toList = line ++ 0 :: rest)
    (h0 : 0 ∉ line) : stringOf s = some line := by
  have hline : ∀ c ∈ line, decide (c ≠ 0) = true := fun c hc => decide_eq_true fun e => h0 (e ▸ hc)
  rw [stringOf, h, if_pos (List.mem_append_right _ List.mem_cons_self),
    List.takeWhile_append_of_pos hline, List.takeWhile_cons_of_neg (by decide), List.append_nil]

/-- What the loop reads before the end of standard input is a line of it. -/
theorem stringOf_fgets {n : Nat} {s : Vector UInt8 n} {stdin : List UInt8} (hn : 0 < n)
    (hs : stdin ≠ []) (h0 : 0 ∉ stdin) :
    stringOf (fgets s stdin).1 = some (Lines.takeLine newline (n - 1) stdin) ∧
      (fgets s stdin).2 = stdin.drop (Lines.takeLine newline (n - 1) stdin).length := by
  rw [fgets, if_neg hs]
  refine ⟨?_, rfl⟩
  have hlen := Lines.length_takeLine_le newline (n - 1) stdin
  have h0' : 0 ∉ Lines.takeLine newline (n - 1) stdin := fun hm =>
    h0 ((Lines.takeLine_initial newline (n - 1) stdin).mem hm)
  generalize Lines.takeLine newline (n - 1) stdin = line at *
  have hlist := toList_ofFn_getD s (l := line ++ [0]) (by
    rw [List.length_append, List.length_singleton]; omega)
  rw [List.append_assoc, List.singleton_append] at hlist
  exact stringOf_eq hlist h0'

/-- At the end of standard input, the array is as it was. -/
theorem fgets_nil {n : Nat} (s : Vector UInt8 n) : fgets s [] = (s, []) := if_pos rfl

namespace Chatter

/-- The strings passed to `sendMessage`. -/
def messages (c : Chatter) : List (List UInt8) := c.ldp.called.map Prod.snd

/-- The event is a pass of the loop. -/
def Event.isPass : Event → Bool
  | .pass _ => true
  | .ldp _ => false

variable {host : ByteOrder} {c c' : Chatter}

/-- What a pass does: it sends the string in the array. -/
theorem pass_eq {message : Vector UInt8 MAXBUFLEN} (h : c.step host (.pass message) = some c') :
    ∃ string, stringOf (fgets message c.stdin).1 = some string ∧
      c'.messages = c.messages ++ [string] ∧ c'.stdin = (fgets message c.stdin).2 := by
  obtain ⟨string, hs, h⟩ := Option.bind_eq_some_iff.mp h
  obtain ⟨ldp, hl, h⟩ := Option.bind_eq_some_iff.mp h
  obtain rfl := Option.some.inj h
  obtain ⟨pc, -, hl⟩ := Option.bind_eq_some_iff.mp hl
  obtain ⟨-, rfl⟩ := Endpoint.call_eq hl
  exact ⟨string, hs, by simp [messages], rfl⟩

/-- At the end of standard input a pass sends what its array holds: after a pass that has
read a line, that line again (`stringOf_fgets`). -/
theorem pass_at_end {message : Vector UInt8 MAXBUFLEN} (hend : c.stdin = [])
    (h : c.step host (.pass message) = some c') :
    ∃ string, stringOf message = some string ∧ c'.messages = c.messages ++ [string] := by
  obtain ⟨string, hs, hmessages, -⟩ := pass_eq h
  rw [hend, fgets_nil] at hs
  exact ⟨string, hs, hmessages⟩

/-- Nothing else is sent or read. -/
theorem ldp_eq {e : Endpoint.Event} (h : c.step host (.ldp e) = some c') :
    c'.messages = c.messages ∧ c'.stdin = c.stdin := by
  cases e with
  | call k message => exact absurd h (by simp [step])
  | send k memory =>
    obtain ⟨ldp, hl, h⟩ := Option.bind_eq_some_iff.mp h
    obtain rfl := Option.some.inj h
    obtain ⟨pc, -, hl⟩ := Option.bind_eq_some_iff.mp hl
    obtain ⟨_, _, _, _, _, _, rfl⟩ := Endpoint.send_eq hl
    exact ⟨rfl, rfl⟩
  | sender k stack | arrive source datagram buf | receiver | consumer =>
    obtain ⟨ldp, hl, h⟩ := Option.bind_eq_some_iff.mp h
    obtain rfl := Option.some.inj h
    obtain ⟨-, hcalled, -⟩ := Endpoint.step_callers hl rfl
    exact ⟨by rw [messages, messages, hcalled], rfl⟩

/-- The strings sent are the lines read off `content`, and standard input is the rest. -/
structure ReadsContent (content : List UInt8) (c : Chatter) : Prop where
  reads : Lines.Reads newline (MAXBUFLEN - 1) content c.messages c.stdin
  stdin : 0 ∉ c.stdin

/-- A step keeps to the lines, unless it begins a pass at the end of standard input. -/
theorem step_reads {content : List UInt8} {e : Event} (hi : c.ReadsContent content)
    (hok : e.isPass = true → c.stdin ≠ []) (h : c.step host e = some c') : c'.ReadsContent content := by
  cases e with
  | pass message =>
    obtain ⟨string, hstring, hmessages, hstdin⟩ := pass_eq h
    have hne := hok rfl
    obtain ⟨hs, hrest⟩ := stringOf_fgets (s := message) (by decide) hne hi.stdin
    rw [hs, Option.some.injEq] at hstring
    rw [hrest] at hstdin
    refine ⟨?_, fun hm => hi.stdin (List.mem_of_mem_drop (hstdin ▸ hm))⟩
    rw [hmessages, hstdin, ← hstring]
    exact hi.reads.line hne
  | ldp e =>
    obtain ⟨hmessages, hstdin⟩ := ldp_eq h
    exact ⟨by rw [hmessages, hstdin]; exact hi.reads, hstdin ▸ hi.stdin⟩

/-- A run without a pass at the end of standard input. -/
def StopsAtEnd (host : ByteOrder) (c : Chatter) (evs : List Event) : Prop :=
  AllSteps (step host) (fun c e => e.isPass = true → c.stdin ≠ []) c evs

/-- What has been sent so far is the content of standard input, once. -/
structure SentOnce (content : List UInt8) (c : Chatter) : Prop where
  /-- What has been sent, in order, and what is still to be read: nothing is lost or repeated. -/
  complete : c.messages.flatten ++ c.stdin = content
  short : ∀ message ∈ c.messages, message.length ≤ 122
  /-- A newline is only the last character of a message. -/
  ended : ∀ message ∈ c.messages, newline ∉ message.dropLast
  /-- No message is sent once the content is used up. -/
  unfinished : ∀ front message back, c.messages = front ++ message :: back → front.flatten ≠ content

theorem ReadsContent.sentOnce {content : List UInt8} (h : c.ReadsContent content) :
    c.SentOnce content where
  complete := h.reads.flatten
  short message hm := (h.reads.of_mem (by decide) message hm).2.1
  ended message hm := (h.reads.of_mem (by decide) message hm).2.2
  unfinished _ _ _ hl := h.reads.flatten_ne (by decide) hl

variable {isClient : Bool} {memory resolved : Sockaddr} {content : List UInt8} {evs : List Event}

theorem construct_reads (h0 : 0 ∉ content) :
    (construct isClient memory resolved content).ReadsContent content := by
  have hm : (construct isClient memory resolved content).messages = [] := by cases isClient <;> rfl
  exact ⟨hm ▸ .start, h0⟩

/-- After a pass at the end of standard input, it has not been sent once. -/
theorem not_sentOnce {message : Vector UInt8 MAXBUFLEN} (hs : c.SentOnce content) (hend : c.stdin = [])
    (h : c.step host (.pass message) = some c') : ¬ c'.SentOnce content := by
  obtain ⟨string, -, hmessages⟩ := pass_at_end hend h
  have hc := hs.complete
  rw [hend, List.append_nil] at hc
  exact fun hs' => hs'.unfinished c.messages string [] hmessages hc

/-- In a run of a chatter, client or server, the content of standard input is sent once, at
every point of it, exactly if no pass of the loop begins after the content is used up. -/
theorem stdin_sent_once_iff (h0 : 0 ∉ content)
    (h : run (step host) (construct isClient memory resolved content) evs = some c) :
    (∀ before c', before <+: evs →
      run (step host) (construct isClient memory resolved content) before = some c' →
      c'.SentOnce content) ↔
    StopsAtEnd host (construct isClient memory resolved content) evs := by
  refine ⟨fun hs => allSteps_iff.mpr fun before e after t he ht hp hend => ?_, fun hok => ?_⟩
  · cases e with
    | ldp e => exact absurd hp Bool.false_ne_true
    | pass message =>
      rw [he, run_append, ht, Option.bind_some] at h
      obtain ⟨t', ht', -⟩ := run_cons_eq_some.mp h
      refine not_sentOnce (hs before t (he ▸ List.prefix_append _ _) ht) hend ht' ?_
      refine hs (before ++ [.pass message]) t' ?_ ?_
      · exact ⟨after, by rw [he, List.append_assoc, List.singleton_append]⟩
      · rw [run_append, ht, Option.bind_some, run_cons, ht']
        rfl
  · rintro before c' ⟨after, rfl⟩ ht
    have hreads := run_induction_of (fun hi hok hstep => step_reads hi hok hstep) (construct_reads h0)
      (allSteps_append.mp hok).1 ht
    exact hreads.sentOnce

/-- The array of the loop, in memory that was zero and after a pass that read `hi`. -/
def blankArray : Vector UInt8 MAXBUFLEN := Vector.replicate 123 0
def hiArray : Vector UInt8 MAXBUFLEN := (fgets blankArray [104, 105, 10]).1

/-- A pass that reads `hi`, and the call of `send`. -/
def hiPass : List Event :=
  .pass blankArray :: List.replicate 7 (.ldp (.send 0 blankPacket))

theorem stdin_sent_once_iff_hi :
    ∃ c, run (step .little) (construct true peerAddress peerAddress [104, 105, 10]) hiPass = some c ∧
      ((∀ before c', before <+: hiPass →
          run (step .little) (construct true peerAddress peerAddress [104, 105, 10]) before = some c' →
          c'.SentOnce [104, 105, 10]) ↔
        StopsAtEnd .little (construct true peerAddress peerAddress [104, 105, 10]) hiPass) := by
  have h : run (step .little) (construct true peerAddress peerAddress [104, 105, 10]) hiPass = _ := rfl
  exact ⟨_, h, stdin_sent_once_iff (by decide) h⟩

/-- At the end of standard input, the next pass sends the last line again. -/
theorem hi_sent_twice :
    ∃ c, run (step .little) (construct true peerAddress peerAddress [104, 105, 10])
        (hiPass ++ [.pass hiArray]) = some c ∧
      c.messages = [[104, 105, 10], [104, 105, 10]] ∧ ¬ c.SentOnce [104, 105, 10] := by
  refine ⟨_, rfl, rfl, fun h => ?_⟩
  exact h.unfinished [[104, 105, 10]] [104, 105, 10] [] rfl rfl

end Chatter
end Ldp
