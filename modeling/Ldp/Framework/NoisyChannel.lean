import Ldp.Framework.Channel
import Ldp.Framework.Counting

/-!
# A channel that alters what it carries

A channel whose network may also put anything in the place of what is in flight. The receiver
tells what is damaged by a test of its own (`intact`). What it receives was sent or has been
put there (`mem_step`). If all that is put there is damaged then, without duplicates and
overtaking, what is received intact is in the order in which it was sent (`sublist_step`). In
any case, what is sent and what is gained in flight, by a duplicate or an alteration that the
test does not tell, is what has arrived and what is lost, by a drop or an alteration
(`balance_step`).
-/

namespace Framework

namespace NoisyChannel

inductive Event (α : Type _)
  | channel (e : Channel.Event α)
  | alter (i : Nat) (a : α)

variable {α : Type _}

def step (faults : Faults) (c : Channel α) : Event α → Option (Channel α)
  | .channel e => Channel.step faults c e
  | .alter i a => some { c with inFlight := c.inFlight.set i a }

variable {faults : Faults} {c c' : Channel α} {e : Event α} {intact : α → Bool}

/-! ## What is received -/

/-- If what is put in the place of something satisfies `P`, all that is received or in flight
was sent or satisfies `P`. -/
theorem mem_step {P : α → Prop} (hi : ∀ x ∈ c.received ++ c.inFlight, x ∈ c.sent ∨ P x)
    (he : ∀ i a, e = .alter i a → P a) (h : step faults c e = some c') :
    ∀ x ∈ c'.received ++ c'.inFlight, x ∈ c'.sent ∨ P x := by
  obtain ⟨hr, hf⟩ := List.forall_mem_append.mp hi
  refine List.forall_mem_append.mpr ?_
  cases e with
  | channel e =>
    cases e with
    | send a =>
      obtain rfl := Option.some.inj h
      refine ⟨fun x hx => (hr x hx).imp_left (List.mem_append_left _), fun x hx => ?_⟩
      rcases List.mem_append.mp hx with hx | hx
      · exact (hf x hx).imp_left (List.mem_append_left _)
      · exact .inl (List.mem_append_right _ hx)
    | deliver i =>
      obtain ⟨-, a, ha, rfl⟩ := Channel.deliver_eq h
      refine ⟨fun x hx => ?_, fun x hx => hf x (List.eraseIdx_subset hx)⟩
      rcases List.mem_append.mp hx with hx | hx
      · exact hr x hx
      · exact List.mem_singleton.mp hx ▸ hf a (List.mem_of_getElem? ha)
    | drop i =>
      obtain ⟨-, rfl⟩ := Channel.drop_eq h
      exact ⟨hr, fun x hx => hf x (List.eraseIdx_subset hx)⟩
    | duplicate i =>
      obtain ⟨-, a, ha, rfl⟩ := Channel.duplicate_eq h
      refine ⟨hr, fun x hx => ?_⟩
      rcases List.eq_or_mem_of_mem_insertIdx hx with rfl | hx
      · exact hf x (List.mem_of_getElem? ha)
      · exact hf x hx
  | alter i a =>
    obtain rfl := Option.some.inj h
    refine ⟨hr, fun x hx => ?_⟩
    rcases List.mem_or_eq_of_mem_set hx with hx | rfl
    · exact hf x hx
    · exact .inr (he i x rfl)

/-- What is damaged takes the place of something. -/
theorem filter_set_sublist {l : List α} {i : Nat} {a : α} (ha : intact a = false) :
    ((l.set i a).filter intact).Sublist (l.filter intact) := by
  induction l generalizing i with
  | nil => exact List.Sublist.refl _
  | cons x l ih =>
    cases i with
    | zero =>
      rw [List.set_cons_zero, List.filter_cons_of_neg (by simp [ha])]
      exact (List.sublist_cons_self x l).filter intact
    | succ i =>
      rw [List.set_cons_succ, List.filter_cons, List.filter_cons]
      split
      · exact ih.cons_cons x
      · exact ih

theorem sublist_step (hdup : faults.duplicates = false) (hre : faults.reorders = false)
    (hi : ((c.received ++ c.inFlight).filter intact).Sublist c.sent)
    (he : ∀ i a, e = .alter i a → intact a = false) (h : step faults c e = some c') :
    ((c'.received ++ c'.inFlight).filter intact).Sublist c'.sent := by
  cases e with
  | channel e =>
    cases e with
    | send a =>
      obtain rfl := Option.some.inj h
      rw [← List.append_assoc, List.filter_append]
      exact hi.append List.filter_sublist
    | deliver i =>
      obtain ⟨rfl | hr, -⟩ := Channel.deliver_eq h
      · obtain ⟨heq, hs⟩ := @Channel.deliver_zero _ faults _ _ h
        rwa [heq, hs]
      · exact absurd (hre.symm.trans hr) Bool.false_ne_true
    | drop i =>
      obtain ⟨-, rfl⟩ := Channel.drop_eq h
      exact (((List.eraseIdx_sublist _ _).append_left _).filter intact).trans hi
    | duplicate i => exact absurd (hdup.symm.trans (Channel.duplicate_eq h).1) Bool.false_ne_true
  | alter i a =>
    obtain rfl := Option.some.inj h
    rw [List.filter_append] at hi ⊢
    exact ((filter_set_sublist (he i a rfl)).append_left _).trans hi

/-! ## What is lost, and what is gained -/

/-- How many intact ones an event takes out of flight. -/
def lost (intact : α → Bool) (c : Channel α) : Event α → Nat
  | .channel (.drop i) | .alter i _ => (c.inFlight[i]?.any intact).toNat
  | .channel _ => 0

/-- How many intact ones it puts there. -/
def gained (intact : α → Bool) (c : Channel α) : Event α → Nat
  | .channel (.duplicate i) => (c.inFlight[i]?.any intact).toNat
  | .channel _ => 0
  | .alter i a => (c.inFlight[i]?.any fun _ => intact a).toNat

/-- How many intact ones have arrived or are in flight. -/
def arrived (intact : α → Bool) (c : Channel α) : Nat := c.received.countP intact + c.inFlight.countP intact

/-- Something else in a place of a list. -/
theorem countP_set_any (intact : α → Bool) (l : List α) (i : Nat) (a : α) :
    (l.set i a).countP intact + (l[i]?.any intact).toNat =
      l.countP intact + (l[i]?.any fun _ => intact a).toNat := by
  cases hi : l[i]? with
  | none => rw [List.set_eq_of_length_le (List.getElem?_eq_none_iff.mp hi)]; rfl
  | some b => exact countP_set_add a intact hi

/-- What is sent and gained arrives, or is lost. -/
theorem balance_step (intact : α → Bool) (h : step faults c e = some c') :
    c'.sent.countP intact + arrived intact c + gained intact c e =
      c.sent.countP intact + arrived intact c' + lost intact c e := by
  cases e with
  | channel e =>
    cases e with
    | send a =>
      obtain rfl := Option.some.inj h
      simp only [arrived, List.countP_append, lost, gained]
      omega
    | deliver i =>
      obtain ⟨-, a, ha, rfl⟩ := Channel.deliver_eq h
      have hcount := countP_eraseIdx_add intact c.inFlight i
      rw [ha, Option.any_some] at hcount
      simp only [arrived, List.countP_append, countP_singleton, lost, gained]
      omega
    | drop i =>
      obtain ⟨-, rfl⟩ := Channel.drop_eq h
      have hcount := countP_eraseIdx_add intact c.inFlight i
      simp only [arrived, lost, gained]
      omega
    | duplicate i =>
      obtain ⟨-, a, ha, rfl⟩ := Channel.duplicate_eq h
      have hcount := countP_insertIdx (i := i + 1) intact a (List.getElem?_eq_some_iff.mp ha).1
      simp only [arrived, lost, gained, ha, Option.any_some]
      omega
  | alter i a =>
    obtain rfl := Option.some.inj h
    have hcount := countP_set_any intact c.inFlight i a
    simp only [arrived, lost, gained]
    omega

end NoisyChannel
end Framework
