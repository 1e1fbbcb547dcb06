import Ldp.Framework.Run

/-!
# Implementations

A system `step` implements a specification `step'` if it shows the events of the
specification, one at a time, in steps of its own, most of which show nothing. `shown s e`
are the events that the step `e` shows in the state `s`; `Shows s acts t` says that a run
from `s` to `t` shows `acts`. What is seen of the states (`view`) goes along with the events
shown (`sim`), so that a run of the implementation is a run of the specification
(`Implementation.run_of_shows`). A state of the specification has a state of the
implementation that represents it, in which no thread is in the middle of anything, and from
there every event that the specification permits can be shown (`realize`), so that the
specification has no other runs than these (`Implementation.shows_of_run`). Together, the
two have the same traces (`Implementation.shows_iff`).
-/

namespace Framework

variable {σ ε σ' ε' : Type _}

/-- The events that a run shows. -/
def trace (step : σ → ε → Option σ) (shown : σ → ε → List ε') : σ → List ε → List ε'
  | _, [] => []
  | s, e :: evs => shown s e ++ (step s e).elim [] fun s' => trace step shown s' evs

/-- A run from `s` to `t` shows `acts`. -/
def Shows (step : σ → ε → Option σ) (shown : σ → ε → List ε') (s : σ) (acts : List ε') (t : σ) : Prop :=
  ∃ evs, run step s evs = some t ∧ trace step shown s evs = acts

variable {step : σ → ε → Option σ} {shown : σ → ε → List ε'} {s s' t u : σ} {e : ε}
  {acts acts' : List ε'}

theorem run_single_iff : run step s [e] = some t ↔ step s e = some t := by
  simp only [run_cons_eq_some, run_nil, Option.some.injEq, exists_eq_right]

theorem run_single (h : step s e = some t) : run step s [e] = some t := run_single_iff.mpr h

theorem trace_cons (h : step s e = some s') (evs : List ε) :
    trace step shown s (e :: evs) = shown s e ++ trace step shown s' evs := by
  rw [trace, h, Option.elim_some]

theorem trace_append {evs evs' : List ε} (h : run step s evs = some t) :
    trace step shown s (evs ++ evs') = trace step shown s evs ++ trace step shown t evs' := by
  induction evs generalizing s with
  | nil =>
    obtain rfl := Option.some.inj h
    rfl
  | cons e evs ih =>
    obtain ⟨s', hs, ht⟩ := run_cons_eq_some.mp h
    rw [List.cons_append, trace_cons hs, trace_cons hs, ih ht, List.append_assoc]

namespace Shows

theorem refl (s : σ) : Shows step shown s [] s := ⟨[], rfl, rfl⟩

theorem cons (h : step s e = some s') (ht : Shows step shown s' acts t) :
    Shows step shown s (shown s e ++ acts) t := by
  obtain ⟨evs, hrun, hacts⟩ := ht
  exact ⟨e :: evs, run_cons_eq_some.mpr ⟨s', h, hrun⟩, by rw [trace_cons h, hacts]⟩

theorem single (h : step s e = some t) (he : shown s e = acts) : Shows step shown s acts t :=
  ⟨[e], run_single h, by rw [trace_cons h, he, trace, List.append_nil]⟩

theorem of_eq (h : Shows step shown s acts t) (ht : t = u) : Shows step shown s acts u := ht ▸ h

theorem trans (hs : Shows step shown s acts t) (ht : Shows step shown t acts' u) :
    Shows step shown s (acts ++ acts') u := by
  obtain ⟨evs, hrun, rfl⟩ := hs
  obtain ⟨evs', hrun', rfl⟩ := ht
  exact ⟨evs ++ evs', run_append_of hrun hrun', trace_append hrun⟩

end Shows

/-- A system `step` that implements `step'`. -/
structure Implementation (step : σ → ε → Option σ) (step' : σ' → ε' → Option σ') where
  /-- What is seen of a state, and of a step. -/
  view : σ → σ'
  shown : σ → ε → List ε'
  /-- An invariant of the states. -/
  Inv : σ → Prop
  inv_step : ∀ {s e s'}, Inv s → step s e = some s' → Inv s'
  /-- A step leads to where the events that it shows lead. -/
  sim : ∀ {s e s'}, Inv s → step s e = some s' → run step' (view s) (shown s e) = some (view s')
  /-- A state that a state of the specification is seen of. -/
  represent : σ' → σ
  view_represent : ∀ a, view (represent a) = a
  /-- What the specification can do there can be shown. -/
  realize : ∀ {a act b}, Inv (represent a) → step' a act = some b →
    Shows step shown (represent a) [act] (represent b)

namespace Implementation

variable {step' : σ' → ε' → Option σ'} {a b : σ'} (m : Implementation step step')

/-- What a run shows is a run of the specification. -/
theorem run_of_shows (hi : m.Inv s) (h : Shows step m.shown s acts t) :
    run step' (m.view s) acts = some (m.view t) := by
  obtain ⟨evs, hrun, rfl⟩ := h
  induction evs generalizing s with
  | nil =>
    obtain rfl := Option.some.inj hrun
    rfl
  | cons e evs ih =>
    obtain ⟨s', hs, ht⟩ := run_cons_eq_some.mp hrun
    rw [trace_cons hs]
    exact run_append_of (m.sim hi hs) (ih (m.inv_step hi hs) ht)

theorem inv_of_shows (hi : m.Inv s) (h : Shows step m.shown s acts t) : m.Inv t := by
  obtain ⟨evs, hrun, -⟩ := h
  exact run_induction (fun hi hs => m.inv_step hi hs) hi hrun

/-- A run of the specification is shown. -/
theorem shows_of_run (hi : m.Inv (m.represent a)) (h : run step' a acts = some b) :
    Shows step m.shown (m.represent a) acts (m.represent b) := by
  induction acts generalizing a with
  | nil =>
    obtain rfl := Option.some.inj h
    exact .refl _
  | cons act acts ih =>
    obtain ⟨a', ha, hb⟩ := run_cons_eq_some.mp h
    have hact := m.realize hi ha
    exact hact.trans (ih (m.inv_of_shows hi hact) hb)

/-- From a state that represents what is seen of it, the implementation shows the runs of the
specification and no others. -/
theorem shows_iff (hi : m.Inv s) (hs : m.represent (m.view s) = s) :
    (∃ t, Shows step m.shown s acts t ∧ m.view t = b) ↔ run step' (m.view s) acts = some b := by
  constructor
  · rintro ⟨t, ht, rfl⟩
    exact m.run_of_shows hi ht
  · intro h
    have hshow := m.shows_of_run (hs.symm ▸ hi) h
    exact ⟨m.represent b, hs ▸ hshow, m.view_represent b⟩

end Implementation

end Framework
