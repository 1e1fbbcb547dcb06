import Ldp.Framework.Counting

/-!
# A bounded queue between producers and consumers

Any number of producers and consumers share a queue, guarded by a mutex and two
counting semaphores: `empty` counts the free slots, `full` the filled ones. A
producer waits for a free slot, locks, puts an item at the back, unlocks and
posts a filled slot; a consumer waits for a filled slot, locks, takes the item
at the front, unlocks and posts a free slot. Each of these is a step of its own
(`step`), so the rounds of the threads interleave in any order.

The invariant (`Inv`) counts the slots: those of the semaphores and those held
by threads in the middle of a round add up to the capacity, and the length of
the queue is the number of filled ones among them. From it: the queue is never
longer than its capacity (`Inv.length_le`), a consumer never finds it empty
(`Inv.items_ne_nil`), at most one thread is in the critical section
(`Inv.exclusive`), and the items taken, then those in the queue, are those put,
in order (`Inv.order`).
-/

namespace Framework

/-- `sem_wait`: takes one from the semaphore, if it is not zero. -/
def semWait : Nat → Option Nat
  | 0 => none
  | n + 1 => some n

/-- `sem_post`. -/
def semPost (n : Nat) : Nat := n + 1

theorem semWait_eq_some {n m : Nat} : semWait n = some m ↔ n = m + 1 := by
  cases n <;> simp [semWait]

namespace BoundedBuffer

/-- A thread, as the holder of the mutex: a producer or a consumer, by its number. -/
inductive Party
  | producer (k : Nat)
  | consumer (k : Nat)
  deriving DecidableEq, Repr

/-- Locking the mutex, which no thread may hold. -/
def lock (mutex : Option Party) (p : Party) : Option (Option Party) :=
  if mutex = none then some (some p) else none

theorem lock_eq_some {mutex m : Option Party} {p : Party} :
    lock mutex p = some m ↔ mutex = none ∧ m = some p := by
  unfold lock; split <;> simp_all [eq_comm]

/-- Where a thread is in its round: before its wait; past it; in the critical
section, before and after the access to the queue; past it, before its post. -/
inductive Phase
  | ready
  | slot
  | locked
  | accessed
  | unlocked
  deriving DecidableEq, Repr

namespace Phase

/-- The thread holds a slot. -/
def busy : Phase → Bool
  | .ready => false
  | _ => true

/-- The thread holds a slot and has not accessed the queue. -/
def before : Phase → Bool
  | .slot | .locked => true
  | _ => false

/-- The thread has accessed the queue and has not posted its slot. -/
def after : Phase → Bool
  | .accessed | .unlocked => true
  | _ => false

/-- The thread is in the critical section. -/
def inside : Phase → Bool
  | .locked | .accessed => true
  | _ => false

theorem busy_of_before {ph : Phase} (h : ph.before = true) : ph.busy = true := by
  cases ph <;> first | rfl | exact absurd h Bool.false_ne_true

theorem busy_of_after {ph : Phase} (h : ph.after = true) : ph.busy = true := by
  cases ph <;> first | rfl | exact absurd h Bool.false_ne_true

theorem busy_of_inside {ph : Phase} (h : ph.inside = true) : ph.busy = true := by
  cases ph <;> first | rfl | exact absurd h Bool.false_ne_true

theorem eq_ready {ph : Phase} (h : ph.busy = false) : ph = .ready := by
  cases ph <;> first | rfl | exact absurd h.symm Bool.false_ne_true

end Phase

/-- The queue, the semaphores, the holder of the mutex, where each thread is, and
the items put and taken so far. -/
structure State (α : Type _) where
  items : List α
  empty : Nat
  full : Nat
  mutex : Option Party
  producers : List Phase
  consumers : List Phase
  put : List α
  got : List α

/-- The next step of a producer (which puts `a`, if that step is its put) or of a
consumer. -/
inductive Event (α : Type _)
  | produce (k : Nat) (a : α)
  | consume (k : Nat)

variable {α : Type _}

/-- The next step of producer `k`. -/
def produce (s : State α) (k : Nat) (a : α) : Phase → Option (State α)
  | .ready => do
    let empty ← semWait s.empty
    some { s with empty, producers := s.producers.set k .slot }
  | .slot => do
    let mutex ← lock s.mutex (.producer k)
    some { s with mutex, producers := s.producers.set k .locked }
  | .locked =>
    some { s with items := s.items ++ [a], put := s.put ++ [a], producers := s.producers.set k .accessed }
  | .accessed => some { s with mutex := none, producers := s.producers.set k .unlocked }
  | .unlocked => some { s with full := semPost s.full, producers := s.producers.set k .ready }

/-- The next step of consumer `k`. Taking from an empty queue is undefined. -/
def consume (s : State α) (k : Nat) : Phase → Option (State α)
  | .ready => do
    let full ← semWait s.full
    some { s with full, consumers := s.consumers.set k .slot }
  | .slot => do
    let mutex ← lock s.mutex (.consumer k)
    some { s with mutex, consumers := s.consumers.set k .locked }
  | .locked =>
    match s.items with
    | [] => none
    | a :: items => some { s with items, got := s.got ++ [a], consumers := s.consumers.set k .accessed }
  | .accessed => some { s with mutex := none, consumers := s.consumers.set k .unlocked }
  | .unlocked => some { s with empty := semPost s.empty, consumers := s.consumers.set k .ready }

/-- A step of one thread. -/
def step (s : State α) : Event α → Option (State α)
  | .produce k a => s.producers[k]?.bind (produce s k a)
  | .consume k => s.consumers[k]?.bind (consume s k)

/-- Where thread `p` is. -/
def phaseOf (s : State α) : Party → Option Phase
  | .producer k => s.producers[k]?
  | .consumer k => s.consumers[k]?

/-- The threads of `l`, named by `party`, that are in the critical section are
those that hold the mutex. -/
def Holds (party : Nat → Party) (l : List Phase) (mutex : Option Party) : Prop :=
  ∀ k ph, l[k]? = some ph → (ph.inside = true ↔ mutex = some (party k))

namespace Holds

variable {party : Nat → Party} {l : List Phase} {mutex : Option Party} {k : Nat} {ph ph' : Phase}

/-- A step that neither enters nor leaves the critical section. -/
theorem keep (h : Holds party l mutex) (hk : l[k]? = some ph) (hp : ph'.inside = ph.inside) :
    Holds party (l.set k ph') mutex := by
  intro j x hj
  rw [List.getElem?_set] at hj
  split at hj
  · rename_i e; subst e
    split at hj <;> cases hj
    rw [hp]; exact h k ph hk
  · exact h j x hj

/-- A thread enters the critical section. -/
theorem enter (hinj : Function.Injective party) (h : Holds party l none) (hp : ph'.inside = true) :
    Holds party (l.set k ph') (some (party k)) := by
  intro j x hj
  rw [List.getElem?_set] at hj
  split at hj
  · rename_i e; subst e
    split at hj <;> cases hj
    simp [hp]
  · rename_i e
    have hx := h j x hj
    have hne : party k ≠ party j := fun he => e (hinj he)
    simp only [reduceCtorEq, iff_false, Bool.not_eq_true] at hx
    simp [hx, hne]

/-- A thread of the other kind enters the critical section. -/
theorem enter_other {p : Party} (hne : ∀ j, p ≠ party j) (h : Holds party l none) :
    Holds party l (some p) := by
  intro j x hj
  have hx := h j x hj
  simp only [reduceCtorEq, iff_false, Bool.not_eq_true] at hx
  simp [hx, hne j]

/-- The thread that holds the mutex leaves the critical section. -/
theorem leave (hinj : Function.Injective party) (h : Holds party l (some (party k)))
    (hp : ph'.inside = false) : Holds party (l.set k ph') none := by
  intro j x hj
  rw [List.getElem?_set] at hj
  split at hj
  · rename_i e; subst e
    split at hj <;> cases hj
    simp [hp]
  · rename_i e
    have hx := h j x hj
    have hne : party k ≠ party j := fun he => e (hinj he)
    simp only [Option.some.injEq, hne, iff_false, Bool.not_eq_true] at hx
    simp [hx]

/-- A thread of the other kind, which holds the mutex, leaves the critical section. -/
theorem leave_other {p : Party} (hne : ∀ j, p ≠ party j) (h : Holds party l (some p)) :
    Holds party l none := by
  intro j x hj
  have hx := h j x hj
  simp only [Option.some.injEq, hne j, iff_false, Bool.not_eq_true] at hx
  simp [hx]

theorem init (party : Nat → Party) (n : Nat) : Holds party (.replicate n .ready) none := by
  intro k ph hk
  rw [List.eq_of_mem_replicate (List.mem_of_getElem? hk)]
  simp [Phase.inside]

end Holds

/-- The counts of slots, the holder of the mutex and the order of the items. -/
structure Inv (cap : Nat) (s : State α) : Prop where
  used : s.full + s.consumers.countP Phase.before + s.producers.countP Phase.after = s.items.length
  slots : s.empty + s.full + s.producers.countP Phase.busy + s.consumers.countP Phase.busy = cap
  producer : Holds .producer s.producers s.mutex
  consumer : Holds .consumer s.consumers s.mutex
  order : s.got ++ s.items = s.put

namespace Inv

variable {cap : Nat} {s s' : State α}

/-- The state before any round: no thread is in one, and all slots are free. -/
theorem init (cap np nc : Nat) :
    Inv cap (⟨[], cap, 0, none, .replicate np .ready, .replicate nc .ready, [], []⟩ : State α) where
  used := by simp [List.countP_replicate, Phase.before, Phase.after]
  slots := by simp [List.countP_replicate, Phase.busy]
  producer := .init _ _
  consumer := .init _ _
  order := rfl

theorem producer_injective : Function.Injective Party.producer := fun _ _ h => Party.producer.inj h

theorem consumer_injective : Function.Injective Party.consumer := fun _ _ h => Party.consumer.inj h

theorem producer_ne_consumer (k j : Nat) : Party.producer k ≠ .consumer j := nofun

theorem consumer_ne_producer (k j : Nat) : Party.consumer k ≠ .producer j := nofun

/-- The filled slots after producer `k` moves from `ph` to `ph'`. -/
theorem used_producer (hi : Inv cap s) {k : Nat} {ph : Phase} (ph' : Phase)
    (hk : s.producers[k]? = some ph) {full len : Nat}
    (h : full + ph'.after.toNat + s.items.length = s.full + ph.after.toNat + len) :
    full + s.consumers.countP Phase.before + (s.producers.set k ph').countP Phase.after = len := by
  have hu := hi.used
  have hset := countP_set_add ph' Phase.after hk
  omega

/-- All slots after producer `k` moves from `ph` to `ph'`. -/
theorem slots_producer (hi : Inv cap s) {k : Nat} {ph : Phase} (ph' : Phase)
    (hk : s.producers[k]? = some ph) {empty full : Nat}
    (h : empty + full + ph'.busy.toNat = s.empty + s.full + ph.busy.toNat) :
    empty + full + (s.producers.set k ph').countP Phase.busy + s.consumers.countP Phase.busy = cap := by
  have hs := hi.slots
  have hset := countP_set_add ph' Phase.busy hk
  omega

/-- The filled slots after consumer `k` moves from `ph` to `ph'`. -/
theorem used_consumer (hi : Inv cap s) {k : Nat} {ph : Phase} (ph' : Phase)
    (hk : s.consumers[k]? = some ph) {full len : Nat}
    (h : full + ph'.before.toNat + s.items.length = s.full + ph.before.toNat + len) :
    full + (s.consumers.set k ph').countP Phase.before + s.producers.countP Phase.after = len := by
  have hu := hi.used
  have hset := countP_set_add ph' Phase.before hk
  omega

/-- All slots after consumer `k` moves from `ph` to `ph'`. -/
theorem slots_consumer (hi : Inv cap s) {k : Nat} {ph : Phase} (ph' : Phase)
    (hk : s.consumers[k]? = some ph) {empty full : Nat}
    (h : empty + full + ph'.busy.toNat = s.empty + s.full + ph.busy.toNat) :
    empty + full + s.producers.countP Phase.busy + (s.consumers.set k ph').countP Phase.busy = cap := by
  have hs := hi.slots
  have hset := countP_set_add ph' Phase.busy hk
  omega

/-- A producer's step keeps the invariant. -/
theorem produce {k : Nat} {a : α} {ph : Phase} (hi : Inv cap s) (hk : s.producers[k]? = some ph)
    (h : produce s k a ph = some s') : Inv cap s' := by
  cases ph with
  | ready =>
    simp only [BoundedBuffer.produce, Option.bind_eq_bind, Option.bind_eq_some_iff, Option.some.injEq,
      semWait_eq_some] at h
    obtain ⟨n, hn, rfl⟩ := h
    exact ⟨hi.used_producer .slot hk rfl, hi.slots_producer .slot hk (by simp [Phase.busy]; omega),
      hi.producer.keep hk rfl, hi.consumer, hi.order⟩
  | slot =>
    simp only [BoundedBuffer.produce, Option.bind_eq_bind, Option.bind_eq_some_iff, Option.some.injEq,
      lock_eq_some] at h
    obtain ⟨_, ⟨hm, rfl⟩, rfl⟩ := h
    exact ⟨hi.used_producer .locked hk rfl, hi.slots_producer .locked hk rfl,
      (hm ▸ hi.producer).enter producer_injective rfl,
      (hm ▸ hi.consumer).enter_other (producer_ne_consumer k), hi.order⟩
  | locked =>
    simp only [BoundedBuffer.produce, Option.some.injEq] at h
    subst h
    exact ⟨hi.used_producer .accessed hk (by simp [Phase.after]; omega), hi.slots_producer .accessed hk rfl,
      hi.producer.keep hk rfl, hi.consumer, by simp only [← hi.order, List.append_assoc]⟩
  | accessed =>
    simp only [BoundedBuffer.produce, Option.some.injEq] at h
    subst h
    have hm : s.mutex = some (.producer k) := (hi.producer k _ hk).mp rfl
    exact ⟨hi.used_producer .unlocked hk rfl, hi.slots_producer .unlocked hk rfl,
      (hm ▸ hi.producer).leave producer_injective rfl,
      (hm ▸ hi.consumer).leave_other (producer_ne_consumer k), hi.order⟩
  | unlocked =>
    simp only [BoundedBuffer.produce, Option.some.injEq] at h
    subst h
    exact ⟨hi.used_producer .ready hk (by simp [Phase.after, semPost]),
      hi.slots_producer .ready hk (by simp [Phase.busy, semPost]; omega), hi.producer.keep hk rfl,
      hi.consumer, hi.order⟩

/-- A consumer that is about to take an item finds one. -/
theorem items_ne_nil (hi : Inv cap s) {k : Nat} (hk : s.consumers[k]? = some .locked) :
    s.items ≠ [] := by
  intro he
  have hu := hi.used
  have hpos : 0 < s.consumers.countP Phase.before :=
    List.countP_pos_iff.mpr ⟨_, List.mem_of_getElem? hk, rfl⟩
  simp only [he, List.length_nil] at hu
  omega

/-- A consumer's step keeps the invariant. -/
theorem consume {k : Nat} {ph : Phase} (hi : Inv cap s) (hk : s.consumers[k]? = some ph)
    (h : consume s k ph = some s') : Inv cap s' := by
  cases ph with
  | ready =>
    simp only [BoundedBuffer.consume, Option.bind_eq_bind, Option.bind_eq_some_iff, Option.some.injEq,
      semWait_eq_some] at h
    obtain ⟨n, hn, rfl⟩ := h
    exact ⟨hi.used_consumer .slot hk (by simp [Phase.before]; omega),
      hi.slots_consumer .slot hk (by simp [Phase.busy]; omega), hi.producer, hi.consumer.keep hk rfl,
      hi.order⟩
  | slot =>
    simp only [BoundedBuffer.consume, Option.bind_eq_bind, Option.bind_eq_some_iff, Option.some.injEq,
      lock_eq_some] at h
    obtain ⟨_, ⟨hm, rfl⟩, rfl⟩ := h
    exact ⟨hi.used_consumer .locked hk rfl, hi.slots_consumer .locked hk rfl,
      (hm ▸ hi.producer).enter_other (consumer_ne_producer k),
      (hm ▸ hi.consumer).enter consumer_injective rfl, hi.order⟩
  | locked =>
    simp only [BoundedBuffer.consume] at h
    split at h <;> cases h
    rename_i a items he
    exact ⟨hi.used_consumer .accessed hk (by simp [Phase.before, he]; omega),
      hi.slots_consumer .accessed hk rfl, hi.producer, hi.consumer.keep hk rfl,
      by simp only [← hi.order, he, List.append_assoc, List.singleton_append]⟩
  | accessed =>
    simp only [BoundedBuffer.consume, Option.some.injEq] at h
    subst h
    have hm : s.mutex = some (.consumer k) := (hi.consumer k _ hk).mp rfl
    exact ⟨hi.used_consumer .unlocked hk rfl, hi.slots_consumer .unlocked hk rfl,
      (hm ▸ hi.producer).leave_other (consumer_ne_producer k),
      (hm ▸ hi.consumer).leave consumer_injective rfl, hi.order⟩
  | unlocked =>
    simp only [BoundedBuffer.consume, Option.some.injEq] at h
    subst h
    exact ⟨hi.used_consumer .ready hk rfl,
      hi.slots_consumer .ready hk (by simp [Phase.busy, semPost]; omega), hi.producer,
      hi.consumer.keep hk rfl, hi.order⟩

theorem step {e : Event α} (hi : Inv cap s) (h : step s e = some s') : Inv cap s' := by
  cases e with
  | produce k a =>
    obtain ⟨ph, hk, h⟩ := Option.bind_eq_some_iff.mp h
    exact hi.produce hk h
  | consume k =>
    obtain ⟨ph, hk, h⟩ := Option.bind_eq_some_iff.mp h
    exact hi.consume hk h

/-- The invariant after a run. -/
theorem run {evs : List (Event α)} (hi : Inv cap s) (h : run BoundedBuffer.step s evs = some s') :
    Inv cap s' :=
  run_induction (fun hi h => hi.step h) hi h

/-- The queue is no longer than its capacity. -/
theorem length_le (hi : Inv cap s) : s.items.length ≤ cap := by
  have hu := hi.used
  have hs := hi.slots
  have hb : s.consumers.countP Phase.before ≤ s.consumers.countP Phase.busy :=
    List.countP_mono_left fun _ _ h => Phase.busy_of_before h
  have ha : s.producers.countP Phase.after ≤ s.producers.countP Phase.busy :=
    List.countP_mono_left fun _ _ h => Phase.busy_of_after h
  omega

/-- A producer that is about to put an item finds room. -/
theorem length_lt (hi : Inv cap s) {k : Nat} (hk : s.producers[k]? = some .locked) :
    s.items.length < cap := by
  have hu := hi.used
  have hs := hi.slots
  have hb : s.consumers.countP Phase.before ≤ s.consumers.countP Phase.busy :=
    List.countP_mono_left fun _ _ h => Phase.busy_of_before h
  have hset := countP_set_add .unlocked Phase.after hk
  have hbusy := countP_set_add .unlocked Phase.busy hk
  have ha : (s.producers.set k .unlocked).countP Phase.after ≤
      (s.producers.set k .unlocked).countP Phase.busy :=
    List.countP_mono_left fun _ _ h => Phase.busy_of_after h
  simp only [Phase.after, Phase.busy, Bool.toNat_true, Bool.toNat_false] at hset hbusy
  omega

/-- Exactly the thread in the critical section holds the mutex. -/
theorem mutex_iff (hi : Inv cap s) {p : Party} {ph : Phase} (hp : phaseOf s p = some ph) :
    ph.inside = true ↔ s.mutex = some p := by
  cases p with
  | producer k => exact hi.producer k ph hp
  | consumer k => exact hi.consumer k ph hp

/-- At most one thread is in the critical section. -/
theorem exclusive (hi : Inv cap s) {p q : Party} {ph ph' : Phase} (hp : phaseOf s p = some ph)
    (hq : phaseOf s q = some ph') (hin : ph.inside = true) (hin' : ph'.inside = true) : p = q :=
  Option.some.inj (((hi.mutex_iff hp).mp hin).symm.trans ((hi.mutex_iff hq).mp hin'))

end Inv

end BoundedBuffer
end Framework
