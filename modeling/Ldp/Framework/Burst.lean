import Mathlib.Data.Nat.Digits.Lemmas
import Mathlib.Data.Nat.Prime.Basic

/-!
# Bursts

Numbers that differ in some consecutive bits only (`Within`) are congruent modulo an odd number
exactly if these bits, as numbers, are (`Within.modEq_iff_window`). Modulo `2 ^ n - 1`, and for
no more than `n` bits, they are then equal, or all of the `n` bits are clear in the one and set
in the other (`Within.modEq_iff`). In base `B`, a number is congruent to the sum of its digits
modulo `B - 1` (`ofDigits_modEq_sum`).
-/

namespace Framework.Burst

variable {s n m x y : Nat}

/-- `x` and `y` differ in no bit but the `n` from `s` on. -/
def Within (s n x y : Nat) : Prop := ∀ i, x.testBit i ≠ y.testBit i → s ≤ i ∧ i < s + n

/-- The `n` bits of `x` from `s` on. -/
def window (s n x : Nat) : Nat := x / 2 ^ s % 2 ^ n

/-- The bits are all clear in `x` and all set in `y`, or the other way round. -/
def Inverted (s n x y : Nat) : Prop :=
  window s n x = 0 ∧ window s n y = 2 ^ n - 1 ∨ window s n x = 2 ^ n - 1 ∧ window s n y = 0

theorem window_lt (s n x : Nat) : window s n x < 2 ^ n := Nat.mod_lt _ (Nat.two_pow_pos n)

/-- A number is what is below the bits, the bits, and what is above them. -/
theorem eq_window (s n x : Nat) : x = x % 2 ^ s + 2 ^ s * (window s n x + 2 ^ n * (x / 2 ^ (s + n))) := by
  rw [Nat.pow_add, ← Nat.div_div_eq_div_mul, window, Nat.mod_add_div, Nat.mod_add_div]

theorem testBit_window (s n x i : Nat) :
    (window s n x).testBit i = (decide (i < n) && x.testBit (i + s)) := by
  rw [window, Nat.testBit_mod_two_pow, Nat.testBit_div_two_pow]

namespace Within

theorem mono {s' : Nat} (h : Within s n x y) (hs : s' ≤ s) (hn : s + n ≤ s' + m) : Within s' m x y := by
  intro i hi
  have hin := h i hi
  omega

theorem testBit_eq {i : Nat} (h : Within s n x y) (hi : i < s ∨ s + n ≤ i) : x.testBit i = y.testBit i := by
  by_contra hne
  have hin := h i hne
  omega

/-- Below the bits, the numbers are the same. -/
theorem mod_eq (h : Within s n x y) : x % 2 ^ s = y % 2 ^ s := by
  apply Nat.eq_of_testBit_eq
  intro i
  rw [Nat.testBit_mod_two_pow, Nat.testBit_mod_two_pow]
  by_cases hi : i < s
  · rw [h.testBit_eq (.inl hi)]
  · simp only [hi, decide_false, Bool.false_and]

/-- And above them. -/
theorem div_eq (h : Within s n x y) (hm : s + n ≤ m) : x / 2 ^ m = y / 2 ^ m := by
  apply Nat.eq_of_testBit_eq
  intro i
  rw [Nat.testBit_div_two_pow, Nat.testBit_div_two_pow, h.testBit_eq (.inr (by omega))]

end Within

/-- Two numbers differ in no other bits if they agree below and above them. -/
theorem within_iff : Within s n x y ↔ x % 2 ^ s = y % 2 ^ s ∧ x / 2 ^ (s + n) = y / 2 ^ (s + n) := by
  refine ⟨fun h => ⟨h.mod_eq, h.div_eq (Nat.le_refl _)⟩, fun ⟨hmod, hdiv⟩ i hne => ?_⟩
  by_contra hi
  obtain hlt | hge : i < s ∨ s + n ≤ i := by omega
  · have hx := Nat.testBit_mod_two_pow x s i
    have hy := Nat.testBit_mod_two_pow y s i
    simp only [hlt, decide_true, Bool.true_and] at hx hy
    exact hne (hx.symm.trans ((congrArg (fun z => z.testBit i) hmod).trans hy))
  · have hx := Nat.testBit_div_two_pow x (n := s + n) (i - (s + n))
    have hy := Nat.testBit_div_two_pow y (n := s + n) (i - (s + n))
    rw [Nat.sub_add_cancel hge] at hx hy
    exact hne (hx.symm.trans ((congrArg (fun z => z.testBit (i - (s + n))) hdiv).trans hy))

instance : Decidable (Within s n x y) := decidable_of_iff _ within_iff.symm

instance : Decidable (Inverted s n x y) := inferInstanceAs (Decidable (_ ∨ _))

namespace Within

theorem eq_iff_window (h : Within s n x y) : x = y ↔ window s n x = window s n y := by
  refine ⟨congrArg (window s n), fun hw => ?_⟩
  rw [eq_window s n x, eq_window s n y, hw, h.mod_eq, h.div_eq (Nat.le_refl _)]

/-- Only the bits between what is below and what is above count. -/
theorem modEq_iff_window (h : Within s n x y) (hm : m.Coprime 2) :
    x ≡ y [MOD m] ↔ window s n x ≡ window s n y [MOD m] := by
  have hpow : m.gcd (2 ^ s) = 1 := Nat.Coprime.pow_right s hm
  have hx := eq_window s n x
  have hy := eq_window s n y
  rw [h.mod_eq, h.div_eq (Nat.le_refl _)] at hx
  generalize y % 2 ^ s = low at hx hy
  generalize y / 2 ^ (s + n) = high at hx hy
  generalize window s n x = u at *
  generalize window s n y = v at *
  constructor
  · intro he
    rw [hx, hy] at he
    exact Nat.ModEq.add_right_cancel' _
      (Nat.ModEq.cancel_left_of_coprime hpow (Nat.ModEq.add_left_cancel' _ he))
  · intro he
    rw [hx, hy]
    exact Nat.ModEq.add_left _ (Nat.ModEq.mul_left _ (Nat.ModEq.add_right _ he))

end Within

/-- Inverted bits differ, each of them. -/
theorem Inverted.testBit_ne {i : Nat} (h : Inverted s n x y) (hi : i < n) :
    x.testBit (i + s) ≠ y.testBit (i + s) := by
  have hx := testBit_window s n x i
  have hy := testBit_window s n y i
  rcases h with ⟨h0, h1⟩ | ⟨h1, h0⟩ <;>
  · simp only [h0, h1, Nat.zero_testBit, Nat.testBit_two_pow_sub_one, hi, decide_true, Bool.true_and] at hx hy
    rw [← hx, ← hy]
    decide

/-- So a shorter burst inverts nothing. -/
theorem Within.not_inverted {s' : Nat} (h : Within s m x y) (hm : m < n) : ¬ Inverted s' n x y := by
  intro hi
  have hfirst := h _ (hi.testBit_ne (i := 0) (by omega))
  have hlast := h _ (hi.testBit_ne (i := n - 1) (by omega))
  omega

/-- Congruent numbers of `n` bits are equal or the two that represent zero. -/
theorem modEq_cases {u v : Nat} (hu : u < 2 ^ n) (hv : v < 2 ^ n) (h : u ≡ v [MOD 2 ^ n - 1]) :
    u = v ∨ u = 0 ∧ v = 2 ^ n - 1 ∨ u = 2 ^ n - 1 ∧ v = 0 := by
  obtain hlt | hge := Nat.lt_or_ge u (2 ^ n - 1) <;> obtain hlt' | hge' := Nat.lt_or_ge v (2 ^ n - 1)
  · exact .inl (h.eq_of_lt_of_lt hlt hlt')
  · obtain rfl : v = 2 ^ n - 1 := by omega
    have h0 : u ≡ 0 [MOD 2 ^ n - 1] := h.trans (by simp [Nat.ModEq])
    exact .inr (.inl ⟨h0.eq_of_lt_of_lt hlt (by omega), rfl⟩)
  · obtain rfl : u = 2 ^ n - 1 := by omega
    have h0 : v ≡ 0 [MOD 2 ^ n - 1] := h.symm.trans (by simp [Nat.ModEq])
    exact .inr (.inr ⟨rfl, h0.eq_of_lt_of_lt hlt' (by omega)⟩)
  · exact .inl (by omega)

theorem coprime_two (hn : 0 < n) : (2 ^ n - 1).Coprime 2 := by
  obtain ⟨k, rfl⟩ := Nat.exists_eq_add_of_lt hn
  have hpos := Nat.two_pow_pos k
  refine Nat.coprime_two_right.mpr (Nat.odd_iff.mpr ?_)
  rw [Nat.zero_add, Nat.pow_succ]
  omega

/-- A burst of `n` bits that keeps a number modulo `2 ^ n - 1`. -/
theorem Within.modEq_iff (h : Within s n x y) (hn : 0 < n) :
    x ≡ y [MOD 2 ^ n - 1] ↔ x = y ∨ Inverted s n x y := by
  rw [h.modEq_iff_window (coprime_two hn), h.eq_iff_window]
  constructor
  · exact modEq_cases (window_lt s n x) (window_lt s n y)
  · rintro (he | ⟨h0, h1⟩ | ⟨h1, h0⟩)
    · rw [he]
    · rw [h0, h1]
      simp [Nat.ModEq]
    · rw [h0, h1]
      simp [Nat.ModEq]

theorem ofDigits_modEq_sum {B : Nat} (hB : 1 ≤ B) (digits : List Nat) :
    Nat.ofDigits B digits ≡ digits.sum [MOD B - 1] := by
  have hone : B ≡ 1 [MOD B - 1] := by
    obtain ⟨k, rfl⟩ := Nat.exists_eq_add_of_le' hB
    simp [Nat.ModEq]
  rw [← Nat.ofDigits_one]
  exact Nat.ofDigits_modEq' _ _ _ hone digits

end Framework.Burst
