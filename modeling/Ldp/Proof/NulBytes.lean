import Ldp.Framework.Framing
import Ldp.Proof.StandardInput

/-!
# Standard input with NULs in it

`fgets` stores the NULs of a line like any other character, and the `std::string` made of
its array ends at the first of them. So of each line that the loop of a chatter reads it
sends what comes before the first NUL (`stringOf_fgets_cut`), and as long as it begins no
pass at the end of standard input, this is all that is lost: nothing is, exactly if no NUL
was read (`stdin_cut_at_nul`).
-/

namespace Ldp

open Framework

/-- The string of an array that begins with characters and a NUL. -/
theorem stringOf_eq_cut {n : Nat} {s : Vector UInt8 n} {line rest : List UInt8}
    (h : s.toList = line ++ 0 :: rest) : stringOf s = some (Framing.cut 0 line) := by
  by_cases h0 : 0 ∈ line
  · obtain ⟨front, back, rfl, hfront⟩ := List.eq_append_cons_of_mem h0
    rw [List.append_assoc, List.cons_append] at h
    rw [Framing.cut_append back hfront, stringOf_eq h hfront]
  · rw [stringOf_eq h h0, Framing.cut_of_not_mem h0]

/-- What the loop reads before the end of standard input is a line, as far as its first NUL. -/
theorem stringOf_fgets_cut {n : Nat} {s : Vector UInt8 n} {stdin : List UInt8} (hn : 0 < n)
    (hs : stdin ≠ []) :
    stringOf (fgets s stdin).1 = some (Framing.cut 0 (Lines.takeLine newline (n - 1) stdin)) ∧
      (fgets s stdin).2 = stdin.drop (Lines.takeLine newline (n - 1) stdin).length := by
  rw [fgets, if_neg hs]
  refine ⟨?_, rfl⟩
  have hlen := Lines.length_takeLine_le newline (n - 1) stdin
  generalize Lines.takeLine newline (n - 1) stdin = line at *
  have hlist := toList_ofFn_getD s (l := line ++ [0]) (by
    rw [List.length_append, List.length_singleton]; omega)
  rw [List.append_assoc, List.singleton_append] at hlist
  exact stringOf_eq_cut hlist

namespace Chatter

variable {host : ByteOrder} {c c' : Chatter} {content : List UInt8}

/-- The strings sent are those of the lines read off `content`, and standard input is the rest. -/
def ReadsLines (content : List UInt8) (lines : List (List UInt8)) (c : Chatter) : Prop :=
  Lines.Reads newline (MAXBUFLEN - 1) content lines c.stdin ∧ c.messages = lines.map (Framing.cut 0)

/-- A step reads a line or none, unless it begins a pass at the end of standard input. -/
theorem step_readsLines {lines : List (List UInt8)} {e : Event} (hi : c.ReadsLines content lines)
    (hok : e.isPass = true → c.stdin ≠ []) (h : c.step host e = some c') :
    ∃ lines', c'.ReadsLines content lines' := by
  obtain ⟨hreads, hm⟩ := hi
  cases e with
  | pass message =>
    obtain ⟨string, hstring, hmessages, hstdin⟩ := pass_eq h
    have hne := hok rfl
    obtain ⟨hs, hrest⟩ := stringOf_fgets_cut (s := message) (by decide) hne
    rw [hs, Option.some.injEq] at hstring
    refine ⟨_, hstdin.trans hrest ▸ hreads.line hne, ?_⟩
    rw [hmessages, hm, ← hstring, List.map_append, List.map_singleton]
  | ldp e =>
    obtain ⟨hmessages, hstdin⟩ := ldp_eq h
    exact ⟨lines, by rw [hstdin]; exact hreads, by rw [hmessages, hm]⟩

variable {isClient : Bool} {memory resolved : Sockaddr} {evs : List Event}

theorem construct_readsLines :
    (construct isClient memory resolved content).ReadsLines content [] := by
  cases isClient <;> exact ⟨.start, rfl⟩

/-- Whatever bytes standard input has: in a run of a chatter that begins no pass at its end,
what is sent are the lines read off it, each as far as its first NUL, and what is sent and
what is left make up the content exactly if there was no NUL in what was read. -/
theorem stdin_cut_at_nul (h : run (step host) (construct isClient memory resolved content) evs = some c)
    (hok : StopsAtEnd host (construct isClient memory resolved content) evs) :
    ∃ lines, Lines.Reads newline (MAXBUFLEN - 1) content lines c.stdin ∧
      c.messages = lines.map (Framing.cut 0) ∧
      (c.messages.flatten ++ c.stdin = content ↔ 0 ∉ lines.flatten) := by
  obtain ⟨lines, hreads, hm⟩ : ∃ lines, c.ReadsLines content lines := by
    unfold StopsAtEnd at hok
    refine run_induction_of (I := fun c : Chatter => ∃ lines, c.ReadsLines content lines) ?_
      ⟨[], construct_readsLines⟩ hok h
    rintro c e c' ⟨lines, hl⟩ ho hs
    exact step_readsLines hl ho hs
  refine ⟨lines, hreads, hm, ?_⟩
  rw [hm, ← Framing.flatten_map_cut_iff, ← hreads.flatten, List.append_cancel_right_eq]

/-- A line with a NUL in it. -/
theorem stdin_cut_at_nul_hi :
    ∃ c lines, run (step .little) (construct true peerAddress peerAddress [104, 0, 105, 10])
        [.pass blankArray] = some c ∧ c.messages = [[104]] ∧
      Lines.Reads newline (MAXBUFLEN - 1) [104, 0, 105, 10] lines c.stdin ∧
      c.messages = lines.map (Framing.cut 0) ∧
      (c.messages.flatten ++ c.stdin = [104, 0, 105, 10] ↔ 0 ∉ lines.flatten) := by
  have h : run (step .little) (construct true peerAddress peerAddress [104, 0, 105, 10])
      [.pass blankArray] = _ := rfl
  obtain ⟨lines, hlines⟩ := stdin_cut_at_nul h ⟨fun _ => by decide, fun _ _ => trivial⟩
  exact ⟨_, lines, h, by decide, hlines⟩

end Chatter
end Ldp
