import Mathlib.Data.List.Basic
import Mathlib.Data.List.TakeWhile

/-!
# Messages framed by a terminator

Messages over an alphabet with a terminator `z`, sent as blocks of any sizes: the
blocks of a message make up the message, then `z`, then anything (`Frames`). A
reader that knows nothing of the messages closes a group of blocks at each block
that has a `z` in it (`groups`), and cuts what the group makes up at its first
`z` (`cut`). Where no message has a `z` in it, the reader gets back the messages
(`messages_flatten`). Cutting pieces of which one has a `z` in it loses something
(`flatten_map_cut_iff`). Blocks of one size can be told apart by it (`chunks_flatten`).
-/

namespace Framework.Framing

variable {α : Type _}

/-- The blocks of a message: those before the last have no `z`, and the last one
has the end of the message, a `z`, and anything. -/
inductive Frames (z : α) : List α → List (List α) → Prop
  | last {message : List α} (rest : List α) : z ∉ message → Frames z message [message ++ z :: rest]
  | cons {block message : List α} {blocks : List (List α)} :
    z ∉ block → Frames z message blocks → Frames z (block ++ message) (block :: blocks)

namespace Frames

variable {z : α} {message : List α} {blocks : List (List α)}

/-- The blocks make up the message, a `z`, and anything. -/
theorem flatten_eq (h : Frames z message blocks) : ∃ rest, blocks.flatten = message ++ z :: rest := by
  induction h with
  | last rest _ => exact ⟨rest, by simp⟩
  | cons _ _ ih =>
    obtain ⟨rest, h⟩ := ih
    exact ⟨rest, by rw [List.flatten_cons, h, List.append_assoc]⟩

theorem not_mem (h : Frames z message blocks) : z ∉ message := by
  induction h with
  | last _ h => exact h
  | cons hb _ ih => exact List.not_mem_append hb ih

end Frames

variable [DecidableEq α] (z : α)

/-- The blocks, in groups that each end at the first block with a `z`. -/
def groups : List (List α) → List (List (List α))
  | [] => []
  | block :: blocks =>
    if z ∈ block then [block] :: groups blocks
    else
      match groups blocks with
      | [] => [[block]]
      | group :: rest => (block :: group) :: rest

/-- What comes before the first `z`. -/
def cut (l : List α) : List α := l.takeWhile (· ≠ z)

/-- The messages that the reader makes of blocks. -/
def messages (blocks : List (List α)) : List (List α) :=
  (groups z blocks).map fun group => cut z group.flatten

variable {z}

theorem cut_append {l : List α} (rest : List α) (h : z ∉ l) : cut z (l ++ z :: rest) = l := by
  have hl : ∀ a ∈ l, decide (a ≠ z) = true := fun a ha => decide_eq_true (ne_of_mem_of_not_mem ha h)
  rw [cut, List.takeWhile_append_of_pos hl]
  simp

theorem cut_of_not_mem {l : List α} (h : z ∉ l) : cut z l = l :=
  List.takeWhile_eq_self_iff.mpr fun _ ha => decide_eq_true (ne_of_mem_of_not_mem ha h)

theorem not_mem_cut (z : α) (l : List α) : z ∉ cut z l := by
  intro h
  have hne := List.mem_takeWhile_imp h
  simp at hne

theorem length_cut_le (z : α) (l : List α) : (cut z l).length ≤ l.length :=
  (List.takeWhile_prefix _).length_le

theorem length_cut_lt {l : List α} (h : z ∈ l) : (cut z l).length < l.length := by
  refine Nat.lt_of_le_of_ne (length_cut_le z l) fun he => not_mem_cut z l ?_
  have hl : cut z l = l := (List.takeWhile_prefix _).eq_of_length he
  rwa [hl]

theorem length_flatten_map_cut_le (z : α) (pieces : List (List α)) :
    (pieces.map (cut z)).flatten.length ≤ pieces.flatten.length := by
  induction pieces with
  | nil => exact Nat.le_refl _
  | cons p pieces ih =>
    have hp := length_cut_le z p
    simp only [List.map_cons, List.flatten_cons, List.length_append]
    omega

theorem length_flatten_map_cut_lt {pieces : List (List α)} (h : z ∈ pieces.flatten) :
    (pieces.map (cut z)).flatten.length < pieces.flatten.length := by
  induction pieces with
  | nil => exact absurd h List.not_mem_nil
  | cons p pieces ih =>
    simp only [List.map_cons, List.flatten_cons, List.length_append]
    rcases List.mem_append.mp (List.flatten_cons ▸ h) with h | h
    · have hp := length_cut_lt h
      have hrest := length_flatten_map_cut_le z pieces
      omega
    · have hp := length_cut_le z p
      have hrest := ih h
      omega

/-- Cutting the pieces of a whole keeps it exactly if there is no `z` in it. -/
theorem flatten_map_cut_iff {pieces : List (List α)} :
    (pieces.map (cut z)).flatten = pieces.flatten ↔ z ∉ pieces.flatten := by
  refine ⟨fun h hz => Nat.ne_of_lt (length_flatten_map_cut_lt hz) (congrArg List.length h), fun h => ?_⟩
  have hcut : pieces.map (cut z) = pieces.map id := List.map_congr_left fun p hp =>
    cut_of_not_mem fun hz => h (List.mem_flatten.mpr ⟨p, hp, hz⟩)
  rw [hcut, List.map_id]

variable {message : List α} {blocks : List (List α)}

/-- The blocks of a message are a group. -/
theorem groups_append (h : Frames z message blocks) (rest : List (List α)) :
    groups z (blocks ++ rest) = blocks :: groups z rest := by
  induction h with
  | last _ _ => simp [groups]
  | cons hb _ ih => rw [List.cons_append, groups, if_neg hb, ih]

/-- The reader gets a message back, and goes on with what follows its blocks. -/
theorem messages_append (h : Frames z message blocks) (rest : List (List α)) :
    messages z (blocks ++ rest) = message :: messages z rest := by
  obtain ⟨after, ha⟩ := h.flatten_eq
  rw [messages, groups_append h, List.map_cons, ha, cut_append after h.not_mem]
  rfl

/-- The reader gets back a sequence of messages. -/
theorem messages_flatten {sent : List (List α)} {blocks : List (List (List α))}
    (h : List.Forall₂ (Frames z) sent blocks) : messages z blocks.flatten = sent := by
  induction h with
  | nil => rfl
  | cons h _ ih => rw [List.flatten_cons, messages_append h, ih]

/-! ## Blocks of one size -/

/-- A list cut into blocks of `n`, without the rest. -/
def chunks {β : Type _} (n : Nat) (l : List β) : List (List β) :=
  (List.range (l.length / n)).map fun i => (l.drop (n * i)).take n

theorem chunks_append {β : Type _} {n : Nat} {block : List β} (hn : 0 < n) (h : block.length = n)
    (l : List β) : chunks n (block ++ l) = block :: chunks n l := by
  have hlen : (block ++ l).length / n = l.length / n + 1 := by
    rw [List.length_append, h, Nat.add_div_left _ hn]
  rw [chunks, hlen, List.range_succ_eq_map, List.map_cons, List.map_map, Nat.mul_zero, List.drop_zero,
    List.take_left' h]
  congr 1
  refine List.map_congr_left fun i _ => ?_
  rw [Function.comp_apply, Nat.mul_succ, Nat.add_comm, ← List.drop_drop, List.drop_left' h]

/-- Blocks of one size are the chunks of what they make up. -/
theorem chunks_flatten {β : Type _} {n : Nat} {blocks : List (List β)} (hn : 0 < n)
    (h : ∀ block ∈ blocks, block.length = n) : chunks n blocks.flatten = blocks := by
  induction blocks with
  | nil => simp [chunks]
  | cons block blocks ih =>
    rw [List.flatten_cons, chunks_append hn (h block List.mem_cons_self),
      ih fun b hb => h b (List.mem_cons_of_mem _ hb)]

end Framework.Framing
