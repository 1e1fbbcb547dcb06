import Mathlib.Data.List.Basic

/-!
# Runs of a guarded step function

A system is a partial step function: `step s e` is `some s'` if the event `e`
can happen in the state `s` and leads to `s'`, and `none` if it cannot happen
there. `run` takes a list of events from a state; every reachable state is the
end of a run. An invariant of the steps is one of the runs (`run_induction`),
also where the steps are only those that a condition on the state before them
permits (`AllSteps`), and a map that turns each step into a step of another
system, or does not show it there, turns runs into runs (`run_map`). A view of the
states that each step keeps the same is kept the same by the runs (`run_congr`). Taking
only the permitted steps is a system of its own (`guarded`, `run_guarded`).
-/

namespace Framework

variable {σ ε σ' ε' : Type _}

/-- The state after the events `evs` from `s`, if each of them can happen. -/
def run (step : σ → ε → Option σ) : σ → List ε → Option σ
  | s, [] => some s
  | s, e :: evs => (step s e).bind fun s' => run step s' evs

variable {step : σ → ε → Option σ}

@[simp] theorem run_nil (s : σ) : run step s [] = some s := rfl

theorem run_cons (s : σ) (e : ε) (evs : List ε) :
    run step s (e :: evs) = (step s e).bind fun s' => run step s' evs := rfl

theorem run_cons_eq_some {s t : σ} {e : ε} {evs : List ε} :
    run step s (e :: evs) = some t ↔ ∃ s', step s e = some s' ∧ run step s' evs = some t := by
  rw [run_cons, Option.bind_eq_some_iff]

theorem run_append (s : σ) (evs evs' : List ε) :
    run step s (evs ++ evs') = (run step s evs).bind fun s' => run step s' evs' := by
  induction evs generalizing s with
  | nil => rfl
  | cons e evs ih =>
    rw [List.cons_append, run_cons, run_cons, Option.bind_assoc]
    exact congrArg _ (funext fun s' => ih s')

theorem run_append_of {s t u : σ} {evs evs' : List ε} (h : run step s evs = some t)
    (h' : run step t evs' = some u) : run step s (evs ++ evs') = some u := by
  rw [run_append, h, Option.bind_some, h']

/-- Every event of `evs`, run from `s`, happens in a state in which `ok` permits it. -/
def AllSteps (step : σ → ε → Option σ) (ok : σ → ε → Prop) : σ → List ε → Prop
  | _, [] => True
  | s, e :: evs => ok s e ∧ ∀ s', step s e = some s' → AllSteps step ok s' evs

theorem allSteps_append {ok : σ → ε → Prop} {s : σ} {evs evs' : List ε} :
    AllSteps step ok s (evs ++ evs') ↔
      AllSteps step ok s evs ∧ ∀ s', run step s evs = some s' → AllSteps step ok s' evs' := by
  induction evs generalizing s with
  | nil => simp [AllSteps]
  | cons e evs ih =>
    simp only [List.cons_append, AllSteps, ih, run_cons_eq_some]
    refine ⟨fun ⟨h, hs⟩ => ⟨⟨h, fun s' hs' => (hs s' hs').1⟩, ?_⟩, fun ⟨⟨h, hs⟩, ht⟩ => ⟨h, ?_⟩⟩
    · rintro t ⟨s', hs', ht⟩
      exact (hs s' hs').2 t ht
    · exact fun s' hs' => ⟨hs s' hs', fun t ht' => ht t ⟨s', hs', ht'⟩⟩

/-- The states in which the events happen are those that the prefixes of `evs` lead to. -/
theorem allSteps_iff {ok : σ → ε → Prop} {s : σ} {evs : List ε} :
    AllSteps step ok s evs ↔
      ∀ before e after t, evs = before ++ e :: after → run step s before = some t → ok t e := by
  induction evs generalizing s with
  | nil => simp [AllSteps]
  | cons e evs ih =>
    simp only [AllSteps, ih]
    refine ⟨fun ⟨h, hs⟩ before e' after t he ht => ?_, fun h => ⟨h [] e evs s rfl rfl, ?_⟩⟩
    · cases before with
      | nil =>
        obtain ⟨rfl, -⟩ := List.cons.inj he
        exact Option.some.inj ht ▸ h
      | cons x before =>
        obtain ⟨hx, hevs⟩ := List.cons.inj he
        subst hx
        obtain ⟨s', hs', ht⟩ := run_cons_eq_some.mp ht
        exact hs s' hs' before e' after t hevs ht
    · intro s' hs' before e' after t he ht
      exact h (e :: before) e' after t (by rw [he, List.cons_append]) (run_cons_eq_some.mpr ⟨s', hs', ht⟩)

/-- Along a run, conditions that are the same of the steps that can happen are the same. -/
theorem allSteps_congr {ok ok' : σ → ε → Prop}
    (hiff : ∀ {s e s'}, step s e = some s' → (ok s e ↔ ok' s e)) {s t : σ} {evs : List ε}
    (h : run step s evs = some t) : AllSteps step ok s evs ↔ AllSteps step ok' s evs := by
  induction evs generalizing s with
  | nil => exact Iff.rfl
  | cons e evs ih =>
    obtain ⟨s', hs, ht⟩ := run_cons_eq_some.mp h
    simp only [AllSteps, hiff hs, hs, Option.some.injEq, forall_eq', ih ht]

/-- What every permitted step has of its event, the events of a permitted run have. -/
theorem forall_of_allSteps {ok : σ → ε → Prop} {Q : ε → Prop} {s t : σ} {evs : List ε}
    (hQ : ∀ before e u, run step s before = some u → ok u e → Q e) (hok : AllSteps step ok s evs)
    (h : run step s evs = some t) : ∀ e ∈ evs, Q e := by
  intro e he
  obtain ⟨before, after, rfl⟩ := List.append_of_mem he
  rw [run_append] at h
  obtain ⟨u, hu, -⟩ := Option.bind_eq_some_iff.mp h
  exact hQ before e u hu (allSteps_iff.mp hok before e after u rfl hu)

/-- What holds at the start, and is kept by every step from a state in which
`ok` permits it, holds after a run of such steps. -/
theorem run_induction_of {ok : σ → ε → Prop} {I : σ → Prop}
    (hstep : ∀ {s e s'}, I s → ok s e → step s e = some s' → I s') {s t : σ} {evs : List ε}
    (hs : I s) (hok : AllSteps step ok s evs) (h : run step s evs = some t) : I t := by
  induction evs generalizing s with
  | nil => cases h; exact hs
  | cons e evs ih =>
    obtain ⟨s', hs', ht⟩ := run_cons_eq_some.mp h
    exact ih (hstep hs hok.1 hs') (hok.2 s' hs') ht

/-- What holds at the start and is kept by every step holds after every run. -/
theorem run_induction {I : σ → Prop} (hstep : ∀ {s e s'}, I s → step s e = some s' → I s')
    {s t : σ} {evs : List ε} (hs : I s) (h : run step s evs = some t) : I t := by
  induction evs generalizing s with
  | nil => cases h; exact hs
  | cons e evs ih =>
    obtain ⟨s', hs', ht⟩ := run_cons_eq_some.mp h
    exact ih (hstep hs hs') ht

/-- So does what is kept by the steps of the run's own events. -/
theorem run_induction_mem {I : σ → Prop} {evs : List ε}
    (hstep : ∀ {s e s'}, e ∈ evs → I s → step s e = some s' → I s') {s t : σ} (hs : I s)
    (h : run step s evs = some t) : I t := by
  induction evs generalizing s with
  | nil => cases h; exact hs
  | cons e evs ih =>
    obtain ⟨s', hs', ht⟩ := run_cons_eq_some.mp h
    exact ih (fun he => hstep (List.mem_cons_of_mem _ he)) (hstep List.mem_cons_self hs hs') ht

/-- A condition that every state satisfying an invariant meets is met all along
a run from such a state. -/
theorem allSteps_of_invariant {ok : σ → ε → Prop} {I : σ → Prop} (hok : ∀ {s e}, I s → ok s e)
    (hstep : ∀ {s e s'}, I s → step s e = some s' → I s') {s : σ} (hs : I s) (evs : List ε) :
    AllSteps step ok s evs := by
  induction evs generalizing s with
  | nil => trivial
  | cons e evs ih => exact ⟨hok hs, fun s' hs' => ih (hstep hs hs')⟩

/-- A map `f` of states that turns each step into a step of a second system, or does not
show it there, turns runs into runs. -/
theorem run_map {step' : σ' → ε' → Option σ'} (f : σ → σ')
    (hstep : ∀ {s e s'}, step s e = some s' → f s' = f s ∨ ∃ ev, step' (f s) ev = some (f s'))
    {s t : σ} {evs : List ε} (h : run step s evs = some t) :
    ∃ evs', run step' (f s) evs' = some (f t) := by
  induction evs generalizing s with
  | nil =>
    obtain rfl := Option.some.inj h
    exact ⟨[], rfl⟩
  | cons e evs ih =>
    obtain ⟨s', hs', ht⟩ := run_cons_eq_some.mp h
    obtain ⟨evs', h'⟩ := ih ht
    rcases hstep hs' with he | ⟨ev, he⟩
    · exact ⟨evs', he ▸ h'⟩
    · exact ⟨ev :: evs', run_cons_eq_some.mpr ⟨f s', he, h'⟩⟩

/-- If what is seen of a step depends only on what is seen of the state and the event, what
is seen of a run depends only on what is seen of its start and its events. -/
theorem run_congr {τ δ : Type _} {f : σ → τ} {g : ε → δ}
    (hstep : ∀ {s s' e e' t}, f s = f s' → g e = g e' → step s e = some t →
      ∃ t', step s' e' = some t' ∧ f t = f t')
    {s s' t : σ} {evs evs' : List ε} (hs : f s = f s') (he : evs.map g = evs'.map g)
    (h : run step s evs = some t) : ∃ t', run step s' evs' = some t' ∧ f t = f t' := by
  induction evs generalizing s s' evs' with
  | nil =>
    obtain rfl := List.map_eq_nil_iff.mp he.symm
    obtain rfl := Option.some.inj h
    exact ⟨s', rfl, hs⟩
  | cons e evs ih =>
    obtain ⟨e', rest, rfl, hg, hrest⟩ := List.map_eq_cons_iff.mp he.symm
    obtain ⟨u, hu, ht⟩ := run_cons_eq_some.mp h
    obtain ⟨u', hu', hf⟩ := hstep hs hg.symm hu
    obtain ⟨t', ht', hft⟩ := ih hf hrest.symm ht
    exact ⟨t', run_cons_eq_some.mpr ⟨u', hu', ht'⟩, hft⟩

/-- The steps of a system that `ok` permits. -/
def guarded (step : σ → ε → Option σ) (ok : σ → ε → Prop) [∀ s e, Decidable (ok s e)] (s : σ) (e : ε) :
    Option σ :=
  if ok s e then step s e else none

theorem guarded_eq_some {ok : σ → ε → Prop} [∀ s e, Decidable (ok s e)] {s s' : σ} {e : ε} :
    guarded step ok s e = some s' ↔ ok s e ∧ step s e = some s' := by
  unfold guarded
  split <;> simp_all

/-- The runs of such steps are the runs all of whose steps are permitted. -/
theorem run_guarded {ok : σ → ε → Prop} [∀ s e, Decidable (ok s e)] {s t : σ} {evs : List ε} :
    run (guarded step ok) s evs = some t ↔ AllSteps step ok s evs ∧ run step s evs = some t := by
  induction evs generalizing s with
  | nil => simp [AllSteps]
  | cons e evs ih =>
    simp only [run_cons_eq_some, guarded_eq_some, ih, AllSteps]
    constructor
    · rintro ⟨s', ⟨hok, hs⟩, hall, ht⟩
      refine ⟨⟨hok, fun u hu => ?_⟩, s', hs, ht⟩
      rwa [Option.some.inj (hu.symm.trans hs)]
    · rintro ⟨⟨hok, hall⟩, s', hs, ht⟩
      exact ⟨s', ⟨hok, hs⟩, hall s' hs, ht⟩

end Framework
