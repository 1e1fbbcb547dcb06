import Ldp.Framework.Run
import Mathlib.Algebra.Ring.Nat

/-!
# Systems that come to rest

A measure of the work that is left in a state, of which every step takes some away beyond
what its event brings, bounds the length of the runs (`length_add_work_le`). Where the
events that some condition permits bring none, their runs from a state are no longer than
its work (`length_add_work_le_of`; `length_add_work_eq`, where each takes one unit), and one
of them leads to a state in which none of these events can happen any more (`AtRest`,
`exists_run_to_rest`).
-/

namespace Framework

variable {σ ε : Type _} {step : σ → ε → Option σ}

/-- If each step takes away at least one of what is left and what its event brings, there
are no more steps than that. -/
theorem length_add_work_le {work : σ → Nat} {gain : ε → Nat} {ok : ε → Prop}
    (hwork : ∀ {s e s'}, ok e → step s e = some s' → work s' + 1 ≤ work s + gain e) {s t : σ} {evs : List ε}
    (hok : ∀ e ∈ evs, ok e) (h : run step s evs = some t) :
    evs.length + work t ≤ work s + (evs.map gain).sum := by
  induction evs generalizing s with
  | nil =>
    obtain rfl := Option.some.inj h
    simp
  | cons e evs ih =>
    obtain ⟨s', hs', ht⟩ := run_cons_eq_some.mp h
    have hstep := hwork (hok e List.mem_cons_self) hs'
    have hrest := ih (fun x hx => hok x (List.mem_cons_of_mem _ hx)) ht
    rw [List.length_cons, List.map_cons, List.sum_cons]
    omega

/-- Events that bring nothing are no more than what is left. -/
theorem length_add_work_le_of {work : σ → Nat} {ok : ε → Prop}
    (hwork : ∀ {s e s'}, ok e → step s e = some s' → work s' + 1 ≤ work s) {s t : σ} {evs : List ε}
    (hok : ∀ e ∈ evs, ok e) (h : run step s evs = some t) : evs.length + work t ≤ work s := by
  have hlen : evs.length + work t ≤ work s + (evs.map fun _ => 0).sum := length_add_work_le hwork hok h
  simpa using hlen

/-- Where each takes away exactly one, from a state that satisfies an invariant, what is
left tells how many there are still to come. -/
theorem length_add_work_eq {work : σ → Nat} {ok : ε → Prop} {I : σ → Prop}
    (hwork : ∀ {s e s'}, I s → ok e → step s e = some s' → I s' ∧ work s' + 1 = work s) {s t : σ}
    {evs : List ε} (hs : I s) (hok : ∀ e ∈ evs, ok e) (h : run step s evs = some t) :
    evs.length + work t = work s := by
  induction evs generalizing s with
  | nil =>
    obtain rfl := Option.some.inj h
    simp
  | cons e evs ih =>
    obtain ⟨s', hs', ht⟩ := run_cons_eq_some.mp h
    obtain ⟨hi, hstep⟩ := hwork hs (hok e List.mem_cons_self) hs'
    have hrest := ih hi (fun x hx => hok x (List.mem_cons_of_mem _ hx)) ht
    rw [List.length_cons]
    omega

/-- None of the events that `ok` permits can happen. -/
def AtRest (step : σ → ε → Option σ) (ok : ε → Prop) (s : σ) : Prop := ∀ e, ok e → step s e = none

theorem exists_step_of_not_atRest {ok : ε → Prop} {s : σ} (h : ¬ AtRest step ok s) :
    ∃ e s', ok e ∧ step s e = some s' := by
  simp only [AtRest, not_forall] at h
  obtain ⟨e, hok, hne⟩ := h
  obtain ⟨s', hs'⟩ := Option.ne_none_iff_exists'.mp hne
  exact ⟨e, s', hok, hs'⟩

/-- Going on with permitted events for as long as there is one leads to a state at rest. -/
theorem exists_run_to_rest {work : σ → Nat} {ok : ε → Prop}
    (hwork : ∀ {s e s'}, ok e → step s e = some s' → work s' + 1 ≤ work s) (s : σ) :
    ∃ evs t, (∀ e ∈ evs, ok e) ∧ run step s evs = some t ∧ AtRest step ok t := by
  induction hn : work s using Nat.strongRecOn generalizing s with
  | ind n ih =>
    by_cases hrest : AtRest step ok s
    · exact ⟨[], s, by simp, rfl, hrest⟩
    · obtain ⟨e, s', hok, hs'⟩ := exists_step_of_not_atRest hrest
      obtain ⟨evs, t, hevs, ht, hr⟩ := ih _ (hn ▸ hwork hok hs') s' rfl
      refine ⟨e :: evs, t, fun x hx => ?_, run_cons_eq_some.mpr ⟨s', hs', ht⟩, hr⟩
      rcases List.mem_cons.mp hx with rfl | hx
      · exact hok
      · exact hevs x hx

end Framework
