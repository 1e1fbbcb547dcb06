import Mathlib.Algebra.Ring.Nat
import Mathlib.Data.List.Basic

/-!
# Values laid out one after the other

Cells stored into a buffer, from an offset on, one by one (`store`), and fetched from it
(`fetch`); past the end there is nothing to store into. A `Layout` says which cells a value
takes, and of how many cells a value of a kind is made. Values written one after the other, each
where the one before has ended (`writeAll`), are their cells in a row (`writeAll_eq`), and reading
values of the same kinds from there gives them back (`readAll_writeAll`).
-/

namespace Framework

variable {β : Type _} {n : Nat}

/-- A cell stored at `data`. -/
def put (buffer : Vector β n) (data : Nat) (b : β) : Option (Vector β n) :=
  if h : data < n then some (buffer.set data b) else none

/-- The cells stored from `data` on. -/
def store (buffer : Vector β n) (data : Nat) : List β → Option (Vector β n)
  | [] => some buffer
  | b :: l => (put buffer data b).bind fun buffer => store buffer (data + 1) l

/-- The cells from `data` on, so many of them. -/
def fetch (buffer : Vector β n) (data : Nat) : Nat → Option (List β)
  | 0 => some []
  | k + 1 => do
    let b ← buffer[data]?
    let l ← fetch buffer (data + 1) k
    some (b :: l)

theorem store_append (buffer : Vector β n) (data : Nat) (l l' : List β) :
    store buffer data (l ++ l') = (store buffer data l).bind fun b => store b (data + l.length) l' := by
  induction l generalizing buffer data with
  | nil => rfl
  | cons b l ih =>
    simp only [List.cons_append, store, ih, Option.bind_assoc, List.length_cons, Nat.add_right_comm data 1,
      Nat.add_assoc]

theorem fetch_append (buffer : Vector β n) (data k k' : Nat) :
    fetch buffer data (k + k') =
      (fetch buffer data k).bind fun l => (fetch buffer (data + k) k').map (l ++ ·) := by
  induction k generalizing data with
  | zero => simp [fetch]
  | succ k ih =>
    rw [show k + 1 + k' = k + k' + 1 by omega, show data + (k + 1) = data + 1 + k by omega]
    simp only [fetch, ih, Option.bind_eq_bind, Option.bind_assoc]
    cases buffer[data]? with
    | none => rfl
    | some b =>
      simp only [Option.bind_some]
      cases fetch buffer (data + 1) k with
      | none => rfl
      | some l =>
        simp only [Option.bind_some]
        cases fetch buffer (data + 1 + k) k' <;> rfl

/-- Storing within the buffer changes the cells stored into, and no others. -/
theorem store_of_le {buffer : Vector β n} {data : Nat} {l : List β} (h : data + l.length ≤ n) :
    ∃ b, store buffer data l = some b ∧
      ∀ i (hi : i < n), b[i] = if hl : data ≤ i ∧ i < data + l.length then l[i - data] else buffer[i] := by
  induction l generalizing buffer data with
  | nil => exact ⟨buffer, rfl, fun i hi => by rw [dif_neg (by simp only [List.length_nil]; omega)]⟩
  | cons c l ih =>
    rw [List.length_cons] at h
    obtain ⟨b, hb, hget⟩ := @ih (buffer.set data c (by omega)) (data + 1) (by omega)
    refine ⟨b, ?_, fun i hi => ?_⟩
    · rw [store, put, dif_pos (by omega), Option.bind_some, hb]
    · rw [hget i hi]
      simp only [List.length_cons, Vector.getElem_set]
      by_cases hlater : data + 1 ≤ i ∧ i < data + 1 + l.length
      · rw [dif_pos hlater, dif_pos (by omega)]
        rw [List.getElem_cons, dif_neg (by omega)]
        simp only [Nat.sub_add_eq]
      · rw [dif_neg hlater]
        split
        · rename_i he
          subst he
          simp only [Nat.sub_self, List.getElem_cons_zero]
          rw [dif_pos (by omega)]
        · rw [dif_neg (by omega)]

/-- Past the end, nothing can be stored. -/
theorem store_of_gt {buffer : Vector β n} {data : Nat} {l : List β} (hl : l ≠ []) (h : n < data + l.length) :
    store buffer data l = none := by
  induction l generalizing buffer data with
  | nil => exact absurd rfl hl
  | cons c l ih =>
    rw [List.length_cons] at h
    simp only [store, put]
    split
    · rw [Option.bind_some]
      refine ih (fun hnil => ?_) (by omega)
      rw [hnil, List.length_nil] at h
      omega
    · rfl

/-- What storing does, if it succeeds. -/
theorem store_eq_some {buffer b : Vector β n} {data : Nat} {l : List β} (h : store buffer data l = some b) :
    (l ≠ [] → data + l.length ≤ n) ∧
      ∀ i (hi : i < n), b[i] = if hl : data ≤ i ∧ i < data + l.length then l[i - data] else buffer[i] := by
  by_cases hn : data + l.length ≤ n
  · obtain ⟨b', hb', hget⟩ := @store_of_le _ _ buffer data l hn
    obtain rfl := Option.some.inj (h.symm.trans hb')
    exact ⟨fun _ => hn, hget⟩
  · by_cases hl : l = []
    · subst hl
      obtain rfl := Option.some.inj h
      exact ⟨fun hnil => absurd rfl hnil, fun i hi => by rw [dif_neg (by simp only [List.length_nil]; omega)]⟩
    · exact absurd (h.symm.trans (store_of_gt hl (by omega))) (Option.some_ne_none b)

/-- What is fetched are the cells that are there. -/
theorem fetch_eq_some {buffer : Vector β n} {data k : Nat} {l : List β} :
    fetch buffer data k = some l ↔ l.length = k ∧ ∀ i (hi : i < l.length), buffer[data + i]? = some l[i] := by
  induction k generalizing data l with
  | zero =>
    simp only [fetch, Option.some.injEq, List.length_eq_zero_iff]
    refine ⟨fun h => ⟨h.symm, fun i hi => ?_⟩, fun h => h.1.symm⟩
    rw [← h] at hi
    exact absurd hi (Nat.not_lt_zero i)
  | succ k ih =>
    simp only [fetch, Option.bind_eq_bind, Option.bind_eq_some_iff, ih, Option.some.injEq]
    constructor
    · rintro ⟨b, hb, l, ⟨hlen, hl⟩, rfl⟩
      refine ⟨congrArg (· + 1) hlen, fun i hi => ?_⟩
      cases i with
      | zero => exact hb
      | succ i =>
        rw [List.getElem_cons_succ, ← hl i (Nat.lt_of_succ_lt_succ hi)]
        congr 1
        omega
    · rintro ⟨hlen, hl⟩
      cases l with
      | nil => exact absurd hlen.symm (Nat.succ_ne_zero k)
      | cons b l =>
        refine ⟨b, hl 0 (Nat.succ_pos _), l, ⟨Nat.succ.inj hlen, fun i hi => ?_⟩, rfl⟩
        rw [← List.getElem_cons_succ b l i (Nat.succ_lt_succ hi), ← hl (i + 1) (Nat.succ_lt_succ hi)]
        congr 1
        omega

theorem length_fetch {buffer : Vector β n} {data k : Nat} {l : List β} (h : fetch buffer data k = some l) :
    l.length = k := (fetch_eq_some.mp h).1

/-- Cells stored are fetched again. -/
theorem fetch_store {buffer b : Vector β n} {data : Nat} {l : List β} (h : store buffer data l = some b) :
    fetch b data l.length = some l := by
  obtain ⟨hn, hget⟩ := store_eq_some h
  refine fetch_eq_some.mpr ⟨rfl, fun i hi => ?_⟩
  have hle := hn (List.ne_nil_of_length_pos (by omega))
  rw [Vector.getElem?_eq_getElem (by omega), hget _ (by omega), dif_pos (by omega)]
  simp only [Nat.add_sub_cancel_left]

/-! ## Layouts -/

/-- The cells of values, of as many cells as their kind says. -/
structure Layout (κ α β : Type _) where
  kind : α → κ
  size : κ → Nat
  cells : α → List β
  /-- The value of a kind that so many cells are. -/
  value : κ → List β → α
  length_cells : ∀ a, (cells a).length = size (kind a)
  value_cells : ∀ a, value (kind a) (cells a) = a

namespace Layout

variable {κ α : Type _} (layout : Layout κ α β)

/-- A write of one value returns the buffer and the advanced offset, a read the value. Values
that are not of an `ok` kind cannot be written. -/
structure Implemented (n : Nat) (ok : κ → Prop) (write : Vector β n → Nat → α → Option (Vector β n × Nat))
    (read : Vector β n → Nat → κ → Option (α × Nat)) : Prop where
  write_eq : ∀ buffer data a, ok (layout.kind a) →
    write buffer data a = (store buffer data (layout.cells a)).map (·, data + layout.size (layout.kind a))
  write_eq_none : ∀ buffer data a, ¬ ok (layout.kind a) → write buffer data a = none
  read_eq : ∀ buffer data k, ok k →
    read buffer data k =
      (fetch buffer data (layout.size k)).map fun l => (layout.value k l, data + layout.size k)

/-- The values written one after the other. -/
def writeAll (write : Vector β n → Nat → α → Option (Vector β n × Nat)) (buffer : Vector β n) (data : Nat) :
    List α → Option (Vector β n × Nat)
  | [] => some (buffer, data)
  | a :: as => do
    let (buffer, data) ← write buffer data a
    writeAll write buffer data as

/-- Values of the kinds read one after the other. -/
def readAll (read : Vector β n → Nat → κ → Option (α × Nat)) (buffer : Vector β n) (data : Nat) :
    List κ → Option (List α × Nat)
  | [] => some ([], data)
  | k :: ks => do
    let (a, data) ← read buffer data k
    let (as, data) ← readAll read buffer data ks
    some (a :: as, data)

/-- The cells of the values in a row. -/
def allCells (as : List α) : List β := as.flatMap layout.cells

theorem allCells_cons (a : α) (as : List α) :
    layout.allCells (a :: as) = layout.cells a ++ layout.allCells as := List.flatMap_cons

theorem length_allCells (as : List α) :
    (layout.allCells as).length = (as.map fun a => layout.size (layout.kind a)).sum := by
  simp only [allCells, List.length_flatMap, layout.length_cells]

variable {layout} {ok : κ → Prop} {write : Vector β n → Nat → α → Option (Vector β n × Nat)}
  {read : Vector β n → Nat → κ → Option (α × Nat)} {buffer b : Vector β n} {data p : Nat} {as : List α}

theorem writeAll_eq (h : layout.Implemented n ok write read) (hok : ∀ a ∈ as, ok (layout.kind a))
    (buffer : Vector β n) (data : Nat) :
    writeAll write buffer data as =
      (store buffer data (layout.allCells as)).map (·, data + (layout.allCells as).length) := by
  induction as generalizing buffer data with
  | nil => rfl
  | cons a as ih =>
    obtain ⟨ha, has⟩ := List.forall_mem_cons.mp hok
    rw [writeAll, h.write_eq _ _ _ ha, allCells_cons, store_append, ← layout.length_cells]
    cases store buffer data (layout.cells a) with
    | none => rfl
    | some b =>
      simp only [Option.map_some, Option.bind_eq_bind, Option.bind_some, ih has, List.length_append,
        Nat.add_assoc]

/-- Values that are written are of such kinds. -/
theorem ok_of_writeAll (h : layout.Implemented n ok write read)
    (hw : writeAll write buffer data as = some (b, p)) : ∀ a ∈ as, ok (layout.kind a) := by
  induction as generalizing buffer data with
  | nil => exact fun a ha => absurd ha List.not_mem_nil
  | cons a as ih =>
    obtain ⟨r, hr, hw⟩ := Option.bind_eq_some_iff.mp hw
    refine List.forall_mem_cons.mpr ⟨?_, ih hw⟩
    by_contra hk
    exact Option.some_ne_none r (hr.symm.trans (h.write_eq_none buffer data a hk))

/-- Where the cells of values are, reading values of their kinds gives them. -/
theorem readAll_eq (h : layout.Implemented n ok write read) (hok : ∀ a ∈ as, ok (layout.kind a))
    (hf : fetch buffer data (layout.allCells as).length = some (layout.allCells as)) :
    readAll read buffer data (as.map layout.kind) = some (as, data + (layout.allCells as).length) := by
  induction as generalizing data with
  | nil => rfl
  | cons a as ih =>
    obtain ⟨ha, has⟩ := List.forall_mem_cons.mp hok
    rw [allCells_cons, List.length_append, fetch_append] at hf
    obtain ⟨l, hl, hf⟩ := Option.bind_eq_some_iff.mp hf
    obtain ⟨l', hl', hf⟩ := Option.map_eq_some_iff.mp hf
    obtain ⟨hcells, hrest⟩ := List.append_inj hf (length_fetch hl)
    rw [hcells, layout.length_cells] at hl
    rw [hrest, layout.length_cells] at hl'
    rw [List.map_cons, readAll, h.read_eq _ _ _ ha, hl, allCells_cons, List.length_append, layout.length_cells]
    simp only [Option.map_some, Option.bind_eq_bind, Option.bind_some, layout.value_cells, ih has hl',
      Nat.add_assoc]

/-- Values are written unless one is of another kind, or they do not fit. -/
theorem writeAll_eq_none (h : layout.Implemented n ok write read) : writeAll write buffer data as = none ↔
    (∃ a ∈ as, ¬ ok (layout.kind a)) ∨
      0 < (layout.allCells as).length ∧ n < data + (layout.allCells as).length := by
  by_cases hok : ∀ a ∈ as, ok (layout.kind a)
  · have hno : ¬ ∃ a ∈ as, ¬ ok (layout.kind a) := fun ⟨a, ha, hk⟩ => hk (hok a ha)
    rw [or_iff_right hno, writeAll_eq h hok, Option.map_eq_none_iff]
    constructor
    · intro hnone
      have hgt : n < data + (layout.allCells as).length := by
        by_contra hle
        obtain ⟨b, hb, -⟩ := @store_of_le _ _ buffer data (layout.allCells as) (by omega)
        exact Option.some_ne_none b (hb.symm.trans hnone)
      refine ⟨List.length_pos_iff.mpr fun hnil => ?_, hgt⟩
      rw [hnil, store] at hnone
      exact Option.some_ne_none buffer hnone
    · exact fun ⟨hpos, hgt⟩ => store_of_gt (List.length_pos_iff.mp hpos) hgt
  · refine iff_of_true ?_ (.inl (by push Not at hok; exact hok))
    cases hw : writeAll write buffer data as with
    | none => rfl
    | some r => exact absurd (ok_of_writeAll h hw) hok

/-- They advance the offset by their cells, and change no others. -/
theorem writeAll_frame (h : layout.Implemented n ok write read)
    (hw : writeAll write buffer data as = some (b, p)) :
    p = data + (layout.allCells as).length ∧ ∀ i (hi : i < n), i < data ∨ p ≤ i → b[i] = buffer[i] := by
  rw [writeAll_eq h (ok_of_writeAll h hw)] at hw
  obtain ⟨b', hb, hp⟩ := Option.map_eq_some_iff.mp hw
  obtain ⟨rfl, rfl⟩ := Prod.mk.inj hp
  refine ⟨rfl, fun i hi hout => ?_⟩
  rw [(store_eq_some hb).2 i hi, dif_neg (by omega)]

/-- Values that are written are read again. -/
theorem readAll_writeAll (h : layout.Implemented n ok write read)
    (hw : writeAll write buffer data as = some (b, p)) :
    readAll read b data (as.map layout.kind) = some (as, p) := by
  have hok := ok_of_writeAll h hw
  rw [writeAll_eq h hok] at hw
  obtain ⟨b', hb, hp⟩ := Option.map_eq_some_iff.mp hw
  obtain ⟨rfl, rfl⟩ := Prod.mk.inj hp
  exact readAll_eq h hok (fetch_store hb)

end Layout
end Framework
