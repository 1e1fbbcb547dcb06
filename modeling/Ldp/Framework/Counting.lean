import Ldp.Framework.Run
import Mathlib.Algebra.Ring.Nat
import Mathlib.Data.List.InsertIdx
import Mathlib.Data.List.Perm.Basic

/-!
# Counting

How an entry that is replaced, taken out or put in changes a sum over a list, or how many of the
list satisfy a test. Written without subtraction, so that `omega` can use it. And the sum over a
run of what each of its steps costs, or brings (`total`): what a step adds to one quantity and
takes from another balances over the run, too (`run_conserved`).
-/

namespace Framework

/-! ## Lists -/

section Lists

variable {α : Type _} {l : List α} {i : Nat} {a : α}

theorem countP_singleton (p : α → Bool) (a : α) : [a].countP p = (p a).toNat := by
  cases h : p a <;> simp [h]

/-- Replacing an entry of a list changes a sum over the list by that entry. -/
theorem sum_map_set_add (b : α) (f : α → Nat) (h : l[i]? = some a) :
    ((l.set i b).map f).sum + f a = (l.map f).sum + f b := by
  induction l generalizing i with
  | nil => simp at h
  | cons x l ih =>
    cases i with
    | zero =>
      obtain rfl := Option.some.inj h
      simp only [List.set_cons_zero, List.map_cons, List.sum_cons]
      omega
    | succ i =>
      have hrest := ih (List.getElem?_cons_succ ▸ h)
      simp only [List.set_cons_succ, List.map_cons, List.sum_cons]
      omega

/-- And how many of them satisfy `p`. -/
theorem countP_set_add (b : α) (p : α → Bool) (h : l[i]? = some a) :
    (l.set i b).countP p + (p a).toNat = l.countP p + (p b).toNat := by
  obtain ⟨hi, rfl⟩ := List.getElem?_eq_some_iff.mp h
  have hite : ∀ b : Bool, (if b then 1 else 0) = b.toNat := fun b => by cases b <;> rfl
  have hle := List.boole_getElem_le_countP (p := p) hi
  rw [hite] at hle
  rw [List.countP_set hi, hite, hite]
  omega

/-- Taking one out. -/
theorem countP_eraseIdx_add (p : α → Bool) (l : List α) (i : Nat) :
    (l.eraseIdx i).countP p + (l[i]?.any p).toNat = l.countP p := by
  by_cases hi : i < l.length
  · rw [← (List.getElem_cons_eraseIdx_perm hi).countP_eq, List.countP_cons, List.getElem?_eq_getElem hi]
    cases h : p l[i] <;> simp [h]
  · rw [List.eraseIdx_of_length_le (Nat.le_of_not_lt hi), List.getElem?_eq_none (Nat.le_of_not_lt hi)]
    rfl

/-- Putting one in. -/
theorem countP_insertIdx (p : α → Bool) (a : α) (h : i ≤ l.length) :
    (l.insertIdx i a).countP p = l.countP p + (p a).toNat := by
  rw [(List.perm_insertIdx a l h).countP_eq, List.countP_cons]
  cases p a <;> rfl

end Lists

/-! ## Runs -/

variable {σ ε : Type _} {step : σ → ε → Option σ}

/-- The sum of what each step of a run costs. -/
def total (step : σ → ε → Option σ) (cost : σ → ε → Nat) : σ → List ε → Nat
  | _, [] => 0
  | s, e :: evs => cost s e + (step s e).elim 0 fun s' => total step cost s' evs

variable {s t : σ} {evs : List ε}

theorem total_cons {cost : σ → ε → Nat} {e : ε} {s' : σ} (h : step s e = some s') :
    total step cost s (e :: evs) = cost s e + total step cost s' evs := by
  rw [total, h, Option.elim_some]

/-- If each step takes from `a`, beside what it adds to `b`, what `lost` says, and adds to it what
`gained` says, so does a run. -/
theorem run_conserved {a b : σ → Nat} {gained lost : σ → ε → Nat}
    (hstep : ∀ {s e s'}, step s e = some s' → a s' + b s + gained s e = a s + b s' + lost s e)
    (h : run step s evs = some t) :
    a t + b s + total step gained s evs = a s + b t + total step lost s evs := by
  induction evs generalizing s with
  | nil =>
    obtain rfl := Option.some.inj h
    rfl
  | cons e evs ih =>
    obtain ⟨s', hs', ht⟩ := run_cons_eq_some.mp h
    have hfirst := hstep hs'
    have hrest := ih ht
    rw [total_cons hs', total_cons hs']
    omega

/-- What no step can cost more of than its event says. -/
theorem total_le {cost : σ → ε → Nat} {most : ε → Nat} (hle : ∀ s e, cost s e ≤ most e) (s : σ)
    (evs : List ε) : total step cost s evs ≤ (evs.map most).sum := by
  induction evs generalizing s with
  | nil => exact Nat.le_refl 0
  | cons e evs ih =>
    rw [total, List.map_cons, List.sum_cons]
    refine Nat.add_le_add (hle s e) ?_
    cases step s e with
    | none => exact Nat.zero_le _
    | some s' => exact ih s'

end Framework
