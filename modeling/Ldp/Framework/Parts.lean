import Ldp.Framework.Run
import Mathlib.Logic.Function.Basic

/-!
# Systems in parts

What works on one part of a state only leaves the rest as it is, and does not depend on it
(`Framed`), so that it commutes with all that changes the rest only (`Framed.comm`). A system
whose states are made of parts, and each event of which happens in one part and shows the others
nothing, is one of `Parts`. A run of it is one run for each part, of the events in that part
(`run_join`), so that how the events of different parts are ordered does not matter
(`run_of_parts_eq`).
-/

namespace Framework

variable {σ ε ι : Type _}

/-! ## Frames -/

/-- `F` works on the part of a state that `part f s` takes from `s`, where it takes the rest
from `f`. -/
structure Framed (part : σ → σ → σ) (F : σ → Option σ) : Prop where
  self : ∀ s, part s s = s
  frame : ∀ f s, F (part f s) = (F s).map (part f)

namespace Framed

variable {part : σ → σ → σ} {F : σ → Option σ} {m : σ → σ}

theorem comm (h : Framed part F) (hm : ∀ f s, m (part f s) = part (m f) s) (s : σ) :
    F (m s) = (F s).map m := by
  have hself : F s = (F s).map (part s) := by rw [← h.frame, h.self]
  calc F (m s) = F (part (m s) s) := by rw [← hm, h.self]
    _ = (F s).map (part (m s)) := h.frame _ _
    _ = ((F s).map (part s)).map m := by rw [Option.map_map, ← funext (hm s)]; rfl
    _ = (F s).map m := by rw [← hself]

/-- Forgetting some of the rest before or after is the same. -/
theorem map_comm (h : Framed part F) (hm : ∀ f s, m (part f s) = part (m f) s)
    (hidem : ∀ s, m (m s) = m s) (s : σ) : (F (m s)).map m = (F s).map m := by
  rw [h.comm hm, Option.map_map]
  exact congrArg (Option.map · _) (funext hidem)

end Framed

/-! ## Systems in parts -/

variable [DecidableEq ι]

structure Parts (step : σ → ε → Option σ) (ι : Type _) [DecidableEq ι] where
  Inv : σ → Prop
  inv_step : ∀ {s e s'}, Inv s → step s e = some s' → Inv s'
  /-- The part in which an event happens. -/
  part : ε → ι
  /-- The state that has each part from a state of its own. -/
  join : (ι → σ) → σ
  step_join : ∀ {f : ι → σ} {e}, (∀ i, Inv (f i)) →
    step (join f) e = (step (f (part e)) e).map fun t => join (Function.update f (part e) t)

namespace Parts

variable {step : σ → ε → Option σ} (m : Parts step ι) {f : ι → σ} {s t : σ}

/-- The events of a part. -/
def events (i : ι) (evs : List ε) : List ε := evs.filter (m.part · = i)

theorem events_cons_part (e : ε) (evs : List ε) :
    m.events (m.part e) (e :: evs) = e :: m.events (m.part e) evs := by
  simp only [events, List.filter_cons, decide_true, ↓reduceIte]

theorem events_cons_of_ne {e : ε} {i : ι} (h : i ≠ m.part e) (evs : List ε) :
    m.events i (e :: evs) = m.events i evs := by
  simp only [events, List.filter_cons, h.symm, decide_false, Bool.false_eq_true, ↓reduceIte]

theorem inv_update (hf : ∀ i, m.Inv (f i)) (ht : m.Inv t) (i : ι) : ∀ j, m.Inv (Function.update f i t j) := by
  intro j
  by_cases hj : j = i
  · rwa [hj, Function.update_self]
  · rw [Function.update_of_ne hj]
    exact hf j

/-- A run is a run of each part. -/
theorem run_join {evs : List ε} (hf : ∀ i, m.Inv (f i)) :
    run step (m.join f) evs = some t ↔
      ∃ g, (∀ i, run step (f i) (m.events i evs) = some (g i)) ∧ t = m.join g := by
  induction evs generalizing f with
  | nil =>
    simp only [run_nil, Option.some.injEq, events, List.filter_nil]
    constructor
    · rintro rfl
      exact ⟨f, fun i => rfl, rfl⟩
    · rintro ⟨g, hg, rfl⟩
      rw [funext hg]
  | cons e evs ih =>
    rw [run_cons, m.step_join hf]
    constructor
    · intro h
      obtain ⟨s', hs', h⟩ := Option.bind_eq_some_iff.mp h
      obtain ⟨u, hu, rfl⟩ := Option.map_eq_some_iff.mp hs'
      obtain ⟨g, hg, rfl⟩ := (ih (m.inv_update hf (m.inv_step (hf _) hu) _)).mp h
      refine ⟨g, fun i => ?_, rfl⟩
      have hi := hg i
      by_cases he : i = m.part e
      · subst he
        rw [Function.update_self] at hi
        rw [events_cons_part]
        exact run_cons_eq_some.mpr ⟨u, hu, hi⟩
      · rwa [m.events_cons_of_ne he, ← Function.update_of_ne he u f]
    · rintro ⟨g, hg, rfl⟩
      have hpart := hg (m.part e)
      rw [events_cons_part] at hpart
      obtain ⟨u, hu, hrest⟩ := run_cons_eq_some.mp hpart
      rw [hu, Option.map_some, Option.bind_some]
      refine (ih (m.inv_update hf (m.inv_step (hf _) hu) _)).mpr ⟨g, fun i => ?_, rfl⟩
      by_cases he : i = m.part e
      · subst he
        rwa [Function.update_self]
      · rw [Function.update_of_ne he, ← m.events_cons_of_ne he]
        exact hg i

/-- Events that are the same in each part lead to the same state. -/
theorem run_of_parts_eq {evs evs' : List ε} (hf : ∀ i, m.Inv (f i))
    (he : ∀ i, m.events i evs = m.events i evs') : run step (m.join f) evs = run step (m.join f) evs' := by
  apply Option.ext
  intro t
  simp only [m.run_join hf, he]

end Parts
end Framework
