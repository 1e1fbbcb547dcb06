import Ldp.Framework.Run
import Mathlib.Data.List.InsertIdx

/-!
# A datagram channel

What is sent stays in flight until the network delivers it or drops it, and may be
duplicated there; the network never alters it. Which of these faults there are, and
whether what was sent later may overtake, is a parameter (`Faults`). Whatever the
faults, only what was sent is received (`subset_run`); without duplicates and
overtaking, what is received and what is in flight are in the order in which they
were sent (`sublist_run`); without any fault, nothing is missing (`eq_run`). What can be
seen of the datagrams goes through a channel of its own (`step_map`).
-/

namespace Framework

/-- What a network may do to datagrams. -/
structure Faults where
  drops : Bool
  duplicates : Bool
  reorders : Bool
  deriving DecidableEq, Repr

/-- No faults. -/
def Faults.none : Faults := ⟨false, false, false⟩

/-- What was sent, what is in flight and what was received so far. -/
structure Channel (α : Type _) where
  sent : List α
  inFlight : List α
  received : List α

namespace Channel

inductive Event (α : Type _)
  | send (a : α)
  | deliver (i : Nat)
  | drop (i : Nat)
  | duplicate (i : Nat)

variable {α : Type _}

/-- One thing that is sent, or that happens to what is in flight. -/
def step (faults : Faults) (c : Channel α) : Event α → Option (Channel α)
  | .send a => some { c with sent := c.sent ++ [a], inFlight := c.inFlight ++ [a] }
  | .deliver i =>
    if i = 0 ∨ faults.reorders then
      c.inFlight[i]?.map fun a =>
        { c with inFlight := c.inFlight.eraseIdx i, received := c.received ++ [a] }
    else none
  | .drop i => if faults.drops then some { c with inFlight := c.inFlight.eraseIdx i } else none
  | .duplicate i =>
    if faults.duplicates then
      c.inFlight[i]?.map fun a => { c with inFlight := c.inFlight.insertIdx (i + 1) a }
    else none

variable {faults : Faults} {c c' : Channel α} {e : Event α} {i : Nat}

theorem deliver_eq (h : step faults c (.deliver i) = some c') :
    (i = 0 ∨ faults.reorders = true) ∧ ∃ a, c.inFlight[i]? = some a ∧
      c' = { c with inFlight := c.inFlight.eraseIdx i, received := c.received ++ [a] } := by
  simp only [step] at h
  split at h
  · rename_i hi
    obtain ⟨a, ha, rfl⟩ := Option.map_eq_some_iff.mp h
    exact ⟨hi, a, ha, rfl⟩
  · simp only [reduceCtorEq] at h

theorem drop_eq (h : step faults c (.drop i) = some c') :
    faults.drops = true ∧ c' = { c with inFlight := c.inFlight.eraseIdx i } := by
  simp only [step] at h
  split at h
  · rename_i hd
    exact ⟨hd, (Option.some.inj h).symm⟩
  · simp only [reduceCtorEq] at h

theorem duplicate_eq (h : step faults c (.duplicate i) = some c') :
    faults.duplicates = true ∧ ∃ a, c.inFlight[i]? = some a ∧
      c' = { c with inFlight := c.inFlight.insertIdx (i + 1) a } := by
  simp only [step] at h
  split at h
  · rename_i hd
    obtain ⟨a, ha, rfl⟩ := Option.map_eq_some_iff.mp h
    exact ⟨hd, a, ha, rfl⟩
  · simp only [reduceCtorEq] at h

/-- Whatever the faults, only what was sent is received or in flight. -/
theorem subset_step (hi : c.received ++ c.inFlight ⊆ c.sent) (h : step faults c e = some c') :
    c'.received ++ c'.inFlight ⊆ c'.sent := by
  obtain ⟨hr, hf⟩ := List.append_subset.mp hi
  refine List.append_subset.mpr ?_
  cases e with
  | send a =>
    obtain rfl := Option.some.inj h
    refine ⟨List.subset_append_of_subset_left _ hr, List.append_subset.mpr ⟨?_, List.subset_append_right _ _⟩⟩
    exact List.subset_append_of_subset_left _ hf
  | deliver i =>
    obtain ⟨-, a, ha, rfl⟩ := deliver_eq h
    refine ⟨List.append_subset.mpr ⟨hr, ?_⟩, List.Subset.trans List.eraseIdx_subset hf⟩
    exact List.cons_subset.mpr ⟨hf (List.mem_of_getElem? ha), List.nil_subset _⟩
  | drop i =>
    obtain ⟨-, rfl⟩ := drop_eq h
    exact ⟨hr, List.Subset.trans List.eraseIdx_subset hf⟩
  | duplicate i =>
    obtain ⟨-, a, ha, rfl⟩ := duplicate_eq h
    refine ⟨hr, fun x hx => ?_⟩
    rcases List.eq_or_mem_of_mem_insertIdx hx with rfl | hx
    · exact hf (List.mem_of_getElem? ha)
    · exact hf hx

/-- The delivery of what is first in flight. -/
theorem deliver_zero (h : step faults c (.deliver 0) = some c') :
    c'.received ++ c'.inFlight = c.received ++ c.inFlight ∧ c'.sent = c.sent := by
  obtain ⟨-, a, ha, rfl⟩ := deliver_eq h
  cases hf : c.inFlight with
  | nil => simp [hf] at ha
  | cons b rest =>
    simp only [hf, List.getElem?_cons_zero, Option.some.injEq] at ha
    simp [ha]

/-- Without duplicates and overtaking, what is received and in flight is in order. -/
theorem sublist_step (hdup : faults.duplicates = false) (hre : faults.reorders = false)
    (hi : (c.received ++ c.inFlight).Sublist c.sent) (h : step faults c e = some c') :
    (c'.received ++ c'.inFlight).Sublist c'.sent := by
  cases e with
  | send a =>
    obtain rfl := Option.some.inj h
    simpa only [List.append_assoc] using hi.append (List.Sublist.refl [a])
  | deliver i =>
    obtain ⟨rfl | hr, -⟩ := deliver_eq h
    · obtain ⟨he, hs⟩ := deliver_zero h
      rwa [he, hs]
    · exact absurd (hre.symm.trans hr) Bool.false_ne_true
  | drop i =>
    obtain ⟨-, rfl⟩ := drop_eq h
    exact ((List.eraseIdx_sublist _ _).append_left _).trans hi
  | duplicate i => exact absurd (hdup.symm.trans (duplicate_eq h).1) Bool.false_ne_true

/-- Without faults, what is received and in flight is what was sent. -/
theorem eq_step (hi : c.received ++ c.inFlight = c.sent) (h : step .none c e = some c') :
    c'.received ++ c'.inFlight = c'.sent := by
  cases e with
  | send a =>
    obtain rfl := Option.some.inj h
    simp only [← hi, List.append_assoc]
  | deliver i =>
    obtain ⟨rfl | hr, -⟩ := deliver_eq h
    · obtain ⟨he, hs⟩ := deliver_zero h
      rwa [he, hs]
    · exact absurd hr Bool.false_ne_true
  | drop i => exact absurd (drop_eq h).1 Bool.false_ne_true
  | duplicate i => exact absurd (duplicate_eq h).1 Bool.false_ne_true

/-! ## What is seen -/

section Map

variable {β : Type _} (f : α → β)

/-- The channel of what `f` shows of each. -/
def map (c : Channel α) : Channel β := ⟨c.sent.map f, c.inFlight.map f, c.received.map f⟩

def Event.map : Event α → Event β
  | .send a => .send (f a)
  | .deliver i => .deliver i
  | .drop i => .drop i
  | .duplicate i => .duplicate i

theorem step_map (h : step faults c e = some c') : step faults (c.map f) (e.map f) = some (c'.map f) := by
  cases e with
  | send a =>
    obtain rfl := Option.some.inj h
    simp only [step, Event.map, map, List.map_append, List.map_cons, List.map_nil]
  | deliver i =>
    obtain ⟨hi, a, ha, rfl⟩ := deliver_eq h
    simp only [step, Event.map, map, if_pos hi, List.getElem?_map, ha, Option.map_some, List.eraseIdx_map,
      List.map_append, List.map_cons, List.map_nil]
  | drop i =>
    obtain ⟨hd, rfl⟩ := drop_eq h
    simp only [step, Event.map, map, if_pos hd, List.eraseIdx_map]
  | duplicate i =>
    obtain ⟨hd, a, ha, rfl⟩ := duplicate_eq h
    simp only [step, Event.map, map, if_pos hd, List.getElem?_map, ha, Option.map_some, List.map_insertIdx]

end Map

/-! ## Runs -/

variable {evs : List (Event α)}

/-- Nothing sent, in flight or received. -/
def init : Channel α := ⟨[], [], []⟩

theorem subset_run (h : run (step faults) init evs = some c) : c.received ++ c.inFlight ⊆ c.sent :=
  run_induction (I := fun c => c.received ++ c.inFlight ⊆ c.sent) (fun hi hs => subset_step hi hs)
    (List.nil_subset _) h

theorem sublist_run (hdup : faults.duplicates = false) (hre : faults.reorders = false)
    (h : run (step faults) init evs = some c) : (c.received ++ c.inFlight).Sublist c.sent :=
  run_induction (I := fun c => (c.received ++ c.inFlight).Sublist c.sent)
    (fun hi hs => sublist_step hdup hre hi hs) (List.Sublist.refl _) h

theorem eq_run (h : run (step .none) init evs = some c) : c.received ++ c.inFlight = c.sent :=
  run_induction (I := fun c => c.received ++ c.inFlight = c.sent) (fun hi hs => eq_step hi hs) rfl h

end Channel
end Framework
