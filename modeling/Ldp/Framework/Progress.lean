import Ldp.Framework.BoundedBuffer

/-!
# Progress of a bounded buffer

A thread in the middle of a round never blocks the buffer for good: if the mutex is held,
it is by a thread in the critical section, whose step can happen, and otherwise any
thread in the middle of a round can go on (`Inv.exists_enabled`). If no thread is in the
middle of a round, the semaphores count the queue and the rest of its capacity
(`Inv.enabled_or_ready`), so that there is a slot for a producer or one for a consumer. A
thread that waits for a slot does not hold the mutex (`Inv.mutex_ne_of_ready`).
-/

namespace Framework.BoundedBuffer

variable {α : Type _}

/-- The step of thread `p`, which is at `ph`, can happen. -/
def Enabled (s : State α) : Party → Phase → Prop
  | .producer k, ph => ∀ a, (produce s k a ph).isSome = true
  | .consumer k, ph => (consume s k ph).isSome = true

/-- There are `np` producers and `nc` consumers, one of which holds the mutex if it is held. -/
structure Threads (np nc : Nat) (s : State α) : Prop where
  producers : s.producers.length = np
  consumers : s.consumers.length = nc
  producer : ∀ {k}, s.mutex = some (.producer k) → k < np
  consumer : ∀ {k}, s.mutex = some (.consumer k) → k < nc

namespace Threads

variable {np nc : Nat} {s s' : State α}

theorem init (cap np nc : Nat) :
    Threads np nc (⟨[], cap, 0, none, .replicate np .ready, .replicate nc .ready, [], []⟩ : State α) where
  producers := List.length_replicate
  consumers := List.length_replicate
  producer := by simp
  consumer := by simp

theorem produce {k : Nat} {a : α} {ph : Phase} (hi : Threads np nc s) (hk : s.producers[k]? = some ph)
    (h : produce s k a ph = some s') : Threads np nc s' := by
  have hset : ∀ ph', (s.producers.set k ph').length = np := fun ph' => by
    rw [List.length_set, hi.producers]
  cases ph with
  | ready =>
    obtain ⟨n, -, h⟩ := Option.bind_eq_some_iff.mp h
    obtain rfl := Option.some.inj h
    exact ⟨hset _, hi.consumers, hi.producer, hi.consumer⟩
  | slot =>
    obtain ⟨m, hm, h⟩ := Option.bind_eq_some_iff.mp h
    obtain ⟨-, rfl⟩ := lock_eq_some.mp hm
    obtain rfl := Option.some.inj h
    refine ⟨hset _, hi.consumers, fun he => ?_, by simp⟩
    obtain rfl := Party.producer.inj (Option.some.inj he)
    exact hi.producers ▸ (List.getElem?_eq_some_iff.mp hk).1
  | locked | unlocked =>
    obtain rfl := Option.some.inj h
    exact ⟨hset _, hi.consumers, hi.producer, hi.consumer⟩
  | accessed =>
    obtain rfl := Option.some.inj h
    exact ⟨hset _, hi.consumers, by simp, by simp⟩

theorem consume {k : Nat} {ph : Phase} (hi : Threads np nc s) (hk : s.consumers[k]? = some ph)
    (h : consume s k ph = some s') : Threads np nc s' := by
  have hset : ∀ ph', (s.consumers.set k ph').length = nc := fun ph' => by
    rw [List.length_set, hi.consumers]
  cases ph with
  | ready =>
    obtain ⟨n, -, h⟩ := Option.bind_eq_some_iff.mp h
    obtain rfl := Option.some.inj h
    exact ⟨hi.producers, hset _, hi.producer, hi.consumer⟩
  | slot =>
    obtain ⟨m, hm, h⟩ := Option.bind_eq_some_iff.mp h
    obtain ⟨-, rfl⟩ := lock_eq_some.mp hm
    obtain rfl := Option.some.inj h
    refine ⟨hi.producers, hset _, by simp, fun he => ?_⟩
    obtain rfl := Party.consumer.inj (Option.some.inj he)
    exact hi.consumers ▸ (List.getElem?_eq_some_iff.mp hk).1
  | locked =>
    simp only [BoundedBuffer.consume] at h
    split at h
    · exact absurd h (by simp)
    · obtain rfl := Option.some.inj h
      exact ⟨hi.producers, hset _, hi.producer, hi.consumer⟩
  | accessed =>
    obtain rfl := Option.some.inj h
    exact ⟨hi.producers, hset _, by simp, by simp⟩
  | unlocked =>
    obtain rfl := Option.some.inj h
    exact ⟨hi.producers, hset _, hi.producer, hi.consumer⟩

theorem step {e : Event α} (hi : Threads np nc s) (h : step s e = some s') : Threads np nc s' := by
  cases e with
  | produce k a =>
    obtain ⟨ph, hk, h⟩ := Option.bind_eq_some_iff.mp h
    exact hi.produce hk h
  | consume k =>
    obtain ⟨ph, hk, h⟩ := Option.bind_eq_some_iff.mp h
    exact hi.consume hk h

theorem run {evs : List (Event α)} (hi : Threads np nc s)
    (h : run BoundedBuffer.step s evs = some s') : Threads np nc s' :=
  run_induction (fun hi h => hi.step h) hi h

/-- The holder of the mutex is somewhere. -/
theorem exists_phase (hi : Threads np nc s) {p : Party} (h : s.mutex = some p) :
    ∃ ph, phaseOf s p = some ph := by
  cases p with
  | producer k => exact ⟨_, List.getElem?_eq_getElem (hi.producers ▸ hi.producer h)⟩
  | consumer k => exact ⟨_, List.getElem?_eq_getElem (hi.consumers ▸ hi.consumer h)⟩

end Threads

namespace Inv

variable {cap np nc : Nat} {s : State α} {p : Party} {ph : Phase}

/-- A thread that waits for a slot does not hold the mutex. -/
theorem mutex_ne_of_ready (hi : Inv cap s) (hp : phaseOf s p = some .ready) : s.mutex ≠ some p :=
  fun h => absurd ((hi.mutex_iff hp).mpr h) (by decide)

/-- The thread in the critical section can go on. -/
theorem enabled_of_inside (hi : Inv cap s) (hp : phaseOf s p = some ph) (hin : ph.inside = true) :
    Enabled s p ph := by
  cases p with
  | producer k => cases ph <;> first | exact fun _ => rfl | exact absurd hin (by decide)
  | consumer k =>
    cases ph with
    | locked =>
      obtain ⟨a, items, he⟩ := List.exists_cons_of_ne_nil (hi.items_ne_nil hp)
      simp only [Enabled, BoundedBuffer.consume, he, Option.isSome_some]
    | accessed => rfl
    | ready | slot | unlocked => exact absurd hin (by decide)

/-- While the mutex is free, a thread outside the critical section can go on, unless it
waits for a slot. -/
theorem enabled_of_outside (hm : s.mutex = none) (hin : ph.inside = false) (hb : ph.busy = true) :
    Enabled s p ph := by
  cases p <;> cases ph with
  | ready => exact absurd hb (by decide)
  | locked | accessed => exact absurd hin (by decide)
  | slot => simp [Enabled, BoundedBuffer.produce, BoundedBuffer.consume, lock, hm]
  | unlocked => simp [Enabled, BoundedBuffer.produce, BoundedBuffer.consume]

/-- A producer at the beginning of a round can go on if there is a free slot. -/
theorem enabled_producer {k : Nat} (h : 0 < s.empty) : Enabled s (.producer k) .ready := by
  obtain ⟨n, hn⟩ := Nat.exists_eq_add_of_lt h
  simp [Enabled, BoundedBuffer.produce, hn, semWait]

/-- A consumer can if there is a filled one. -/
theorem enabled_consumer {k : Nat} (h : 0 < s.full) : Enabled s (.consumer k) .ready := by
  obtain ⟨n, hn⟩ := Nat.exists_eq_add_of_lt h
  simp [Enabled, BoundedBuffer.consume, hn, semWait]

/-- As long as a thread is in the middle of a round, such a thread can go on. -/
theorem exists_enabled (hi : Inv cap s) (ht : Threads np nc s) (hp : phaseOf s p = some ph)
    (hb : ph.busy = true) :
    ∃ q ph', phaseOf s q = some ph' ∧ ph'.busy = true ∧ Enabled s q ph' := by
  cases hm : s.mutex with
  | some q =>
    obtain ⟨ph', hq⟩ := ht.exists_phase hm
    have hin := (hi.mutex_iff hq).mpr hm
    exact ⟨q, ph', hq, Phase.busy_of_inside hin, hi.enabled_of_inside hq hin⟩
  | none =>
    have hin : ph.inside = false := by
      rw [← Bool.not_eq_true, hi.mutex_iff hp, hm]
      exact (Option.some_ne_none p).symm
    exact ⟨p, ph, hp, hb, enabled_of_outside hm hin hb⟩

/-- No thread is counted for the slot it holds if none holds one. -/
theorem countP_eq_zero {l : List Phase} {f : Phase → Bool} (hf : ∀ {x : Phase}, f x = true → x.busy = true)
    (h : ∀ (k : Nat) (x : Phase), l[k]? = some x → x.busy = false) : l.countP f = 0 := by
  refine List.countP_eq_zero.mpr fun x hm hx => ?_
  obtain ⟨k, hk⟩ := List.getElem?_of_mem hm
  exact absurd ((h k x hk).symm.trans (hf hx)) Bool.false_ne_true

/-- If no thread is in the middle of a round, the filled slots are those of the queue. -/
theorem full_eq (hi : Inv cap s) (h : ∀ p ph, phaseOf s p = some ph → ph.busy = false) :
    s.full = s.items.length := by
  have hc : s.consumers.countP Phase.before = 0 :=
    countP_eq_zero Phase.busy_of_before fun k ph hk => h (.consumer k) ph hk
  have hp : s.producers.countP Phase.after = 0 :=
    countP_eq_zero Phase.busy_of_after fun k ph hk => h (.producer k) ph hk
  have hu := hi.used
  omega

/-- And the free slots are the rest of the capacity. -/
theorem empty_eq (hi : Inv cap s) (h : ∀ p ph, phaseOf s p = some ph → ph.busy = false) :
    s.empty + s.items.length = cap := by
  have hc : s.consumers.countP Phase.busy = 0 := countP_eq_zero id fun k ph hk => h (.consumer k) ph hk
  have hp : s.producers.countP Phase.busy = 0 := countP_eq_zero id fun k ph hk => h (.producer k) ph hk
  have hs := hi.slots
  have hf := hi.full_eq h
  omega

/-- Some thread in the middle of a round can go on, or there is none and the semaphores
count the queue and the rest of its capacity. -/
theorem enabled_or_ready (hi : Inv cap s) (ht : Threads np nc s) :
    (∃ q ph, phaseOf s q = some ph ∧ ph.busy = true ∧ Enabled s q ph) ∨
      (∀ p ph, phaseOf s p = some ph → ph = .ready) ∧ s.full = s.items.length ∧
        s.empty + s.items.length = cap := by
  by_cases hbusy : ∃ p ph, phaseOf s p = some ph ∧ ph.busy = true
  · obtain ⟨p, ph, hp, hb⟩ := hbusy
    exact .inl (hi.exists_enabled ht hp hb)
  · have hready : ∀ p ph, phaseOf s p = some ph → ph.busy = false := fun p ph hp =>
      Bool.eq_false_iff.mpr fun hb => hbusy ⟨p, ph, hp, hb⟩
    exact .inr ⟨fun p ph hp => Phase.eq_ready (hready p ph hp), hi.full_eq hready, hi.empty_eq hready⟩

end Inv

end Framework.BoundedBuffer
