import Mathlib.Data.Nat.ModEq

/-!
# Sums with end-around carry

In base `B`, adding the carry out of the lowest digit back into it (`carry`)
keeps a sum modulo `B - 1`. Done until no carry is left it ends at the one
number below `B` that is congruent to the sum and is zero only if the sum is
(`value`): zero has two representations below `B`, and a sum that is not zero
gives `B - 1`. So two sums have the same value exactly if they are congruent and
both zero or both not (`value_eq_value_iff`). A sum of fewer than `B` digits is
there after two carries (`carry_carry_lt`), and digits added up with the carry
added back in each time give the value of their sum (`sum_eq`).
-/

namespace Framework.OnesComplement

variable {B s t : Nat}

/-- The lowest digit plus the carry out of it. -/
def carry (B s : Nat) : Nat := s % B + s / B

/-- The number below `B` to which adding the carry back in leads. -/
def value (B s : Nat) : Nat := if s = 0 then 0 else (s - 1) % (B - 1) + 1

theorem carry_add (B s : Nat) (hB : 1 ≤ B) : carry B s + (B - 1) * (s / B) = s := by
  obtain ⟨m, rfl⟩ := Nat.exists_eq_add_of_le' hB
  have h := Nat.mod_add_div s (m + 1)
  rw [Nat.add_one_mul] at h
  simp only [carry, Nat.add_sub_cancel]
  omega

theorem carry_mod (s : Nat) (hB : 1 ≤ B) : carry B s % (B - 1) = s % (B - 1) := by
  conv_rhs => rw [← carry_add B s hB]
  rw [Nat.add_mul_mod_self_left]

theorem carry_eq_zero (hB : 1 ≤ B) : carry B s = 0 ↔ s = 0 := by
  refine ⟨fun h => ?_, fun h => by simp [h, carry]⟩
  have hq : s / B = 0 := (Nat.add_eq_zero_iff.mp h).2
  have := carry_add B s hB
  rw [h, hq] at this
  exact this.symm

/-- Adding a carry back in makes the sum smaller. -/
theorem carry_lt (hB : 2 ≤ B) (h : B ≤ s) : carry B s < s := by
  have hq : 0 < s / B := Nat.div_pos h (by omega)
  have hp : 0 < (B - 1) * (s / B) := Nat.mul_pos (by omega) hq
  have := carry_add B s (by omega)
  omega

theorem value_lt (s : Nat) (hB : 2 ≤ B) : value B s < B := by
  unfold value
  split
  · omega
  · have := Nat.mod_lt (s - 1) (show 0 < B - 1 by omega)
    omega

theorem value_eq_zero : value B s = 0 ↔ s = 0 := by
  unfold value; split <;> simp_all

theorem value_of_lt (h : s < B) : value B s = s := by
  unfold value
  split
  · omega
  · rw [Nat.mod_eq_of_lt (by omega)]; omega

theorem value_mod (B s : Nat) : value B s % (B - 1) = s % (B - 1) := by
  unfold value
  split
  · rename_i h; rw [h]
  · rw [Nat.mod_add_mod]; congr 1; omega

/-- Congruent numbers from `1` to `B - 1` are equal. -/
theorem eq_of_mod_eq (hs : 1 ≤ s) (hsB : s < B) (ht : 1 ≤ t) (htB : t < B)
    (h : s % (B - 1) = t % (B - 1)) : s = t := by
  have e (n : Nat) (h1 : 1 ≤ n) (hn : n < B) : n % (B - 1) = if n = B - 1 then 0 else n := by
    split
    · rename_i he; rw [he, Nat.mod_self]
    · exact Nat.mod_eq_of_lt (by omega)
  rw [e s hs hsB, e t ht htB] at h
  split at h <;> split at h <;> omega

/-- Two sums have the same value exactly if they are congruent modulo `B - 1` and
both zero or both not. -/
theorem value_eq_value_iff (hB : 2 ≤ B) :
    value B s = value B t ↔ s % (B - 1) = t % (B - 1) ∧ (s = 0 ↔ t = 0) := by
  refine ⟨fun h => ⟨?_, ?_⟩, fun ⟨hm, hz⟩ => ?_⟩
  · rw [← value_mod B s, ← value_mod B t, h]
  · rw [← value_eq_zero (B := B), ← value_eq_zero (B := B) (s := t), h]
  · by_cases h0 : s = 0
    · rw [h0, hz.mp h0]
    · have hs : value B s ≠ 0 := fun h => h0 (value_eq_zero.mp h)
      have ht : value B t ≠ 0 := fun h => h0 (hz.mpr (value_eq_zero.mp h))
      exact eq_of_mod_eq (by omega) (value_lt s hB) (by omega) (value_lt t hB)
        (by rw [value_mod, value_mod, hm])

theorem value_carry (s : Nat) (hB : 2 ≤ B) : value B (carry B s) = value B s :=
  (value_eq_value_iff hB).mpr ⟨carry_mod s (by omega), carry_eq_zero (by omega)⟩

/-- A sum of two digits has no carry out of the carry added back in. -/
theorem carry_lt_of_le (hB : 1 ≤ B) (h : s ≤ 2 * (B - 1)) : carry B s < B := by
  by_cases hs : s < B
  · rw [carry, Nat.mod_eq_of_lt hs, Nat.div_eq_of_lt hs]
    exact hs
  · have hq : s / B < 2 := (Nat.div_lt_iff_lt_mul hB).mpr (by omega)
    have hp : 0 < s / B := Nat.div_pos (Nat.le_of_not_lt hs) hB
    have hc := carry_add B s hB
    rw [show s / B = 1 by omega] at hc
    omega

/-- Below `B * B`, two carries are enough. -/
theorem carry_carry_lt (hB : 1 ≤ B) (h : s < B * B) : carry B (carry B s) < B := by
  have hm := Nat.mod_lt s (show 0 < B from hB)
  have hq : s / B < B := (Nat.div_lt_iff_lt_mul hB).mpr h
  exact carry_lt_of_le hB (by unfold carry; omega)

/-- The sum of two digits, with the carry out of it added back in. -/
def add (B a b : Nat) : Nat := carry B (a + b)

/-- The one's-complement sum of digits. -/
def sum (B : Nat) (digits : List Nat) : Nat := digits.foldl (add B) 0

theorem add_value (s : Nat) {d : Nat} (hB : 2 ≤ B) (hd : d < B) : add B (value B s) d = value B (s + d) := by
  have hv := value_lt s hB
  have hlt : carry B (value B s + d) < B := carry_lt_of_le (by omega) (by omega)
  rw [add, ← value_of_lt hlt, value_carry _ hB, value_eq_value_iff hB]
  refine ⟨?_, by rw [Nat.add_eq_zero_iff, Nat.add_eq_zero_iff, value_eq_zero]⟩
  rw [Nat.add_mod, value_mod, ← Nat.add_mod]

/-- The one's-complement sum of digits is the value of their sum, by induction on them
from any sum so far. -/
theorem sum_eq {digits : List Nat} (hB : 2 ≤ B) (h : ∀ d ∈ digits, d < B) :
    sum B digits = value B digits.sum := by
  have hfold : ∀ s, digits.foldl (add B) (value B s) = value B (s + digits.sum) := by
    induction digits with
    | nil => exact fun s => rfl
    | cons d digits ih =>
      intro s
      obtain ⟨hd, h⟩ := List.forall_mem_cons.mp h
      rw [List.foldl_cons, add_value s hB hd, ih h, List.sum_cons, Nat.add_assoc]
  have h0 := hfold 0
  rwa [Nat.zero_add] at h0

/-- Replacing the part `x` of a sum by `y` keeps its value exactly if `x` and `y` are
congruent modulo `B - 1` and the two sums both zero or both not. -/
theorem value_add_eq_iff (r x y : Nat) (hB : 2 ≤ B) :
    value B (r + x) = value B (r + y) ↔ x % (B - 1) = y % (B - 1) ∧ (r + x = 0 ↔ r + y = 0) := by
  rw [value_eq_value_iff hB]
  exact and_congr_left fun _ =>
    ⟨fun h => Nat.ModEq.add_left_cancel' r h, fun h => Nat.ModEq.add_left r h⟩

end Framework.OnesComplement
