import Ldp.Framework.Run

/-!
# A log with records in two parts

Writers append to a log without a lock: one of them writes each of its records in two parts
(`first`, `second`), the others write theirs at once (`whole`). Whatever comes between the two
parts, the records in two parts are all there, in order (`parts_eq`). Every record is in one
piece exactly if nothing was written between the two parts of another (`allSteps_iff`).
-/

namespace Framework.SharedLog

inductive Write (α β : Type _)
  | first (a : α)
  | second
  | whole (b : β)

variable {α β : Type _}

/-- Whether a record is open before and after a write. -/
def step : Bool → Write α β → Option Bool
  | false, .first _ => some true
  | true, .second => some false
  | opened, .whole _ => some opened
  | _, _ => none

/-- No whole record is written while another is open. -/
def Undisturbed (opened : Bool) : Write α β → Prop
  | .whole _ => opened = false
  | _ => True

namespace Write

def isPart : Write α β → Bool
  | .whole _ => false
  | _ => true

def first? : Write α β → Option α
  | .first a => some a
  | _ => none

def whole? : Write α β → Option β
  | .whole b => some b
  | _ => none

end Write

/-- What is still to be written of an open record. -/
def rest : Bool → List (Write α β)
  | true => [.second]
  | false => []

/-- The writes of a record. -/
def parts : α ⊕ β → List (Write α β)
  | .inl a => [.first a, .second]
  | .inr b => [.whole b]

/-- What the log has of the records in two parts, and of the others. -/
def firsts (writes : List (Write α β)) : List α := writes.filterMap Write.first?
def wholes (writes : List (Write α β)) : List β := writes.filterMap Write.whole?

variable {opened opened' : Bool} {w : Write α β} {writes : List (Write α β)}

theorem firsts_append (writes writes' : List (Write α β)) :
    firsts (writes ++ writes') = firsts writes ++ firsts writes' := List.filterMap_append

theorem wholes_append (writes writes' : List (Write α β)) :
    wholes (writes ++ writes') = wholes writes ++ wholes writes' := List.filterMap_append

theorem firsts_rest (opened : Bool) : firsts (rest opened : List (Write α β)) = [] := by
  cases opened <;> rfl

theorem wholes_rest (opened : Bool) : wholes (rest opened : List (Write α β)) = [] := by
  cases opened <;> rfl

/-- What is written next, and what it does to an open record. -/
theorem step_eq (h : step opened w = some opened') :
    (∃ a, w = .first a ∧ opened = false ∧ opened' = true) ∨ (w = .second ∧ opened = true ∧ opened' = false) ∨
      ∃ b, w = .whole b ∧ opened' = opened := by
  cases w with
  | first a =>
    cases opened with
    | false => exact .inl ⟨a, rfl, rfl, (Option.some.inj h).symm⟩
    | true => simp only [step, reduceCtorEq] at h
  | second =>
    cases opened with
    | false => simp only [step, reduceCtorEq] at h
    | true => exact .inr (.inl ⟨rfl, rfl, (Option.some.inj h).symm⟩)
  | whole b => exact .inr (.inr ⟨b, rfl, by cases opened <;> exact (Option.some.inj h).symm⟩)

/-- The records in two parts are all there, and in order. -/
theorem parts_eq (h : run step opened writes = some opened') :
    writes.filter Write.isPart ++ rest opened' =
      rest opened ++ (firsts writes).flatMap fun a => parts (.inl a) := by
  induction writes generalizing opened with
  | nil =>
    obtain rfl := Option.some.inj h
    simp only [firsts, List.filter_nil, List.filterMap_nil, List.flatMap_nil, List.nil_append, List.append_nil]
  | cons w writes ih =>
    obtain ⟨b, hb, h⟩ := run_cons_eq_some.mp h
    have hi := ih h
    rcases step_eq hb with ⟨a, rfl, rfl, rfl⟩ | ⟨rfl, rfl, rfl⟩ | ⟨c, rfl, rfl⟩
    · rw [List.filter_cons_of_pos rfl, List.cons_append, hi]
      rfl
    · rw [List.filter_cons_of_pos rfl, List.cons_append, hi]
      rfl
    · rw [List.filter_cons_of_neg Bool.false_ne_true, hi]
      rfl

/-! ## Records in one piece -/

variable {records : List (α ⊕ β)}

theorem firsts_flatMap_parts (records : List (α ⊕ β)) :
    firsts (records.flatMap parts) = records.filterMap Sum.getLeft? := by
  induction records with
  | nil => rfl
  | cons r records ih =>
    rw [List.flatMap_cons, firsts_append, ih]
    cases r <;> rfl

theorem wholes_flatMap_parts (records : List (α ⊕ β)) :
    wholes (records.flatMap parts) = records.filterMap Sum.getRight? := by
  induction records with
  | nil => rfl
  | cons r records ih =>
    rw [List.flatMap_cons, wholes_append, ih]
    cases r <;> rfl

/-- A log in which every record is in one piece has the records of its writers. -/
theorem records_eq (h : writes ++ rest opened = records.flatMap parts) :
    firsts writes = records.filterMap Sum.getLeft? ∧ wholes writes = records.filterMap Sum.getRight? := by
  constructor
  · rw [← firsts_flatMap_parts, ← h, firsts_append, firsts_rest, List.append_nil]
  · rw [← wholes_flatMap_parts, ← h, wholes_append, wholes_rest, List.append_nil]

/-- What begins with the first part of a record, or with a whole one, begins with that record. -/
theorem first_cons_eq {a : α} (h : Write.first a :: writes = records.flatMap parts) :
    ∃ records', records = .inl a :: records' ∧ writes = .second :: records'.flatMap parts := by
  cases records with
  | nil => simp only [List.flatMap_nil, reduceCtorEq] at h
  | cons r records =>
    rw [List.flatMap_cons] at h
    cases r with
    | inl a' =>
      obtain ⟨ha, htail⟩ := List.cons.inj h
      obtain rfl := Write.first.inj ha
      exact ⟨records, rfl, htail⟩
    | inr b => cases (List.cons.inj h).1

theorem whole_cons_eq {b : β} (h : Write.whole b :: writes = records.flatMap parts) :
    ∃ records', records = .inr b :: records' ∧ writes = records'.flatMap parts := by
  cases records with
  | nil => simp only [List.flatMap_nil, reduceCtorEq] at h
  | cons r records =>
    rw [List.flatMap_cons] at h
    cases r with
    | inl a => cases (List.cons.inj h).1
    | inr b' =>
      obtain ⟨hb, htail⟩ := List.cons.inj h
      obtain rfl := Write.whole.inj hb
      exact ⟨records, rfl, htail⟩

/-- Every record is in one piece exactly if no writer has disturbed another. -/
theorem allSteps_iff (h : run step opened writes = some opened') :
    AllSteps step Undisturbed opened writes ↔
      ∃ records : List (α ⊕ β), writes ++ rest opened' = rest opened ++ records.flatMap parts := by
  induction writes generalizing opened with
  | nil =>
    obtain rfl := Option.some.inj h
    exact iff_of_true trivial ⟨[], by rw [List.flatMap_nil, List.append_nil, List.nil_append]⟩
  | cons w writes ih =>
    obtain ⟨b, hb, h⟩ := run_cons_eq_some.mp h
    have hi := ih h
    simp only [AllSteps, hb, Option.some.injEq, forall_eq', hi]
    rcases step_eq hb with ⟨a, rfl, rfl, rfl⟩ | ⟨rfl, rfl, rfl⟩ | ⟨c, rfl, rfl⟩
    · -- the rest of the record comes next
      constructor
      · rintro ⟨-, records, hr⟩
        exact ⟨.inl a :: records, congrArg _ hr⟩
      · rintro ⟨records, hr⟩
        obtain ⟨records', -, hr⟩ := first_cons_eq hr
        exact ⟨trivial, records', hr⟩
    · constructor
      · rintro ⟨-, records, hr⟩
        exact ⟨records, congrArg _ hr⟩
      · rintro ⟨records, hr⟩
        exact ⟨trivial, records, (List.cons.inj hr).2⟩
    · cases b with
      | false =>
        constructor
        · rintro ⟨-, records, hr⟩
          exact ⟨.inr c :: records, congrArg _ hr⟩
        · rintro ⟨records, hr⟩
          obtain ⟨records', -, hr⟩ := whole_cons_eq hr
          exact ⟨rfl, records', hr⟩
      | true =>
        refine iff_of_false (fun hw => absurd hw.1.symm Bool.false_ne_true) ?_
        rintro ⟨records, hr⟩
        cases (List.cons.inj hr).1

end Framework.SharedLog
