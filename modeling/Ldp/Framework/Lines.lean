import Mathlib.Data.List.Basic

/-!
# Reading a stream line by line

A reader takes lines off a stream: up to and including a terminator, or as many
characters as it has room for (`takeLine`). As long as it stops at the end of the stream,
what it has taken is, in order, what the stream has lost (`Reads.flatten`), and each line
is not empty, fits, and has no terminator but at its end (`Reads.line`).
-/

namespace Framework.Lines

variable {α : Type _} [DecidableEq α]

/-- The next line of a stream: up to and including `nl`, or at most `k` characters. -/
def takeLine (nl : α) : Nat → List α → List α
  | 0, _ => []
  | _ + 1, [] => []
  | k + 1, c :: s => if c = nl then [c] else c :: takeLine nl k s

theorem takeLine_initial (nl : α) (k : Nat) (s : List α) : takeLine nl k s <+: s := by
  induction k generalizing s with
  | zero => exact List.nil_prefix
  | succ k ih =>
    cases s with
    | nil => exact List.nil_prefix
    | cons c s =>
      rw [takeLine]
      split
      · exact List.cons_prefix_cons.mpr ⟨rfl, List.nil_prefix⟩
      · exact List.cons_prefix_cons.mpr ⟨rfl, ih s⟩

/-- A line and the rest of the stream are the stream. -/
theorem takeLine_append_drop (nl : α) (k : Nat) (s : List α) :
    takeLine nl k s ++ s.drop (takeLine nl k s).length = s :=
  List.prefix_iff_eq_append.mp (takeLine_initial nl k s)

theorem length_takeLine_le (nl : α) (k : Nat) (s : List α) : (takeLine nl k s).length ≤ k := by
  induction k generalizing s with
  | zero => exact Nat.le_refl 0
  | succ k ih =>
    cases s with
    | nil => exact Nat.zero_le _
    | cons c s =>
      rw [takeLine]
      split
      · exact Nat.succ_le_succ (Nat.zero_le k)
      · exact Nat.succ_le_succ (ih s)

/-- There is a line, unless the stream is at its end. -/
theorem takeLine_ne_nil {nl : α} {k : Nat} {s : List α} (hk : 0 < k) (hs : s ≠ []) :
    takeLine nl k s ≠ [] := by
  cases k with
  | zero => exact absurd hk (Nat.lt_irrefl 0)
  | succ k =>
    cases s with
    | nil => exact absurd rfl hs
    | cons c s =>
      rw [takeLine]
      split <;> exact List.cons_ne_nil _ _

/-- A terminator ends the line. -/
theorem not_mem_dropLast_takeLine (nl : α) (k : Nat) (s : List α) : nl ∉ (takeLine nl k s).dropLast := by
  induction k generalizing s with
  | zero => exact List.not_mem_nil
  | succ k ih =>
    cases s with
    | nil => exact List.not_mem_nil
    | cons c s =>
      rw [takeLine]
      split
      · exact List.not_mem_nil
      · rename_i hc
        cases hl : takeLine nl k s with
        | nil => exact List.not_mem_nil
        | cons d l =>
          rw [List.dropLast_cons_cons, List.mem_cons, ← hl]
          exact not_or.mpr ⟨fun e => hc e.symm, ih s⟩

/-- `lines` are those taken off the stream `s` so far, and `rest` is what is left of it. -/
inductive Reads (nl : α) (k : Nat) (s : List α) : List (List α) → List α → Prop
  | start : Reads nl k s [] s
  | line {lines : List (List α)} {rest : List α} : Reads nl k s lines rest → rest ≠ [] →
    Reads nl k s (lines ++ [takeLine nl k rest]) (rest.drop (takeLine nl k rest).length)

namespace Reads

variable {nl : α} {k : Nat} {s rest : List α} {lines : List (List α)}

/-- Nothing is lost, and nothing is taken twice. -/
theorem flatten (h : Reads nl k s lines rest) : lines.flatten ++ rest = s := by
  induction h with
  | start => rfl
  | line _ _ ih =>
    rw [List.flatten_append, List.flatten_singleton, List.append_assoc, takeLine_append_drop, ih]

/-- Each line is not empty, fits, and has no terminator but at its end. -/
theorem of_mem (hk : 0 < k) (h : Reads nl k s lines rest) :
    ∀ l ∈ lines, l ≠ [] ∧ l.length ≤ k ∧ nl ∉ l.dropLast := by
  induction h with
  | start => exact fun l hl => absurd hl List.not_mem_nil
  | @line lines rest _ hrest ih =>
    intro l hl
    rcases List.mem_append.mp hl with hl | hl
    · exact ih l hl
    · obtain rfl := List.mem_singleton.mp hl
      exact ⟨takeLine_ne_nil hk hrest, length_takeLine_le nl k rest, not_mem_dropLast_takeLine nl k rest⟩

/-- A line is taken only before the end of the stream. -/
theorem flatten_ne {front back : List (List α)} {l : List α} (hk : 0 < k) (h : Reads nl k s lines rest)
    (hl : lines = front ++ l :: back) : front.flatten ≠ s := by
  intro he
  have hf := h.flatten
  obtain ⟨hne, -⟩ := h.of_mem hk l (hl ▸ List.mem_append_right _ List.mem_cons_self)
  rw [hl, List.flatten_append, List.flatten_cons, ← he, List.append_assoc, List.append_assoc] at hf
  exact hne (List.append_eq_nil_iff.mp (List.append_right_eq_self.mp hf)).1

end Reads

end Framework.Lines
