import Ldp.Framework.OnesComplement
import Ldp.Packet
import Mathlib.Tactic.IntervalCases

/-!
# The checksum

`calculateChecksum` adds up the words of the buffer and, if a byte is left over,
the first byte again (`exactSum`). Up to 131074 bytes the 32-bit accumulator does
not wrap (`exactSum_lt`) and the result is the complement of the sum with its
carries added back in (`calculateChecksum_toNat`). So two buffers have the same
checksum exactly if their sums are congruent modulo 65535 and both zero or both
not (`calculateChecksum_eq_iff`).
-/

namespace Ldp.LDPPacket

open Framework

/-- The exact sum of the 16-bit words of a buffer, in the host's byte order. -/
def wordSum (host : ByteOrder) : List UInt8 → Nat
  | b₀ :: b₁ :: data => (host.load b₀ b₁).toNat + wordSum host data
  | _ => 0

/-- The exact sum that `calculateChecksum` adds up. -/
def exactSum (host : ByteOrder) (data : List UInt8) : Nat :=
  wordSum host data + if data.length % 2 = 1 then (data.getD 0 0).toNat else 0

theorem sumWords_eq (host : ByteOrder) : ∀ (data : List UInt8) (sum : UInt32),
    (sumWords host data sum).1.toNat = (sum.toNat + wordSum host data) % 2 ^ 32 ∧
      (sumWords host data sum).2 = data.length % 2
  | [], sum => by have := sum.toNat_lt; simp [sumWords, wordSum]
  | [_], sum => by have := sum.toNat_lt; simp [sumWords, wordSum]
  | b₀ :: b₁ :: data, sum => by
    obtain ⟨h₁, h₂⟩ := sumWords_eq host data (sum + (host.load b₀ b₁).toUInt32)
    simp only [sumWords, wordSum, h₁, h₂, UInt32.toNat_add, UInt16.toNat_toUInt32, List.length_cons]
    omega

theorem load_le (host : ByteOrder) (b₀ b₁ : UInt8) : (host.load b₀ b₁).toNat ≤ 65535 :=
  Nat.le_of_lt_succ (host.load b₀ b₁).toNat_lt

theorem wordSum_le (host : ByteOrder) : ∀ data : List UInt8,
    wordSum host data ≤ 65535 * (data.length / 2)
  | [] => Nat.zero_le _
  | [_] => Nat.zero_le _
  | b₀ :: b₁ :: data => by
    have h := wordSum_le host data
    have hl := load_le host b₀ b₁
    simp only [wordSum, List.length_cons]
    omega

/-- Up to 131074 bytes, the sum fits 32 bits. -/
theorem exactSum_lt (host : ByteOrder) {data : List UInt8} (h : data.length ≤ 131074) :
    exactSum host data < 2 ^ 32 := by
  have hw := wordSum_le host data
  have hb := (data.getD 0 0).toNat_lt
  unfold exactSum
  split <;> omega

/-- A pass of the fold loop adds the carry back in. -/
theorem foldCarry_pass (sum : UInt32) :
    ((sum &&& (0xFFFF : UInt32)) + (sum >>> 16)).toNat = OnesComplement.carry 65536 sum.toNat := by
  have h := sum.toNat_lt
  have hm : sum.toNat &&& 65535 = sum.toNat % 65536 := Nat.and_two_pow_sub_one_eq_mod _ 16
  simp only [UInt32.toNat_add, UInt32.toNat_and, UInt32.toNat_shiftRight, UInt32.reduceToNat, hm,
    Nat.shiftRight_eq_div_pow, OnesComplement.carry, Nat.reduceMod, Nat.reducePow]
  omega

theorem shiftRight_eq_zero {sum : UInt32} : sum >>> 16 = 0 ↔ sum.toNat < 65536 := by
  rw [← UInt32.toNat_inj, UInt32.toNat_shiftRight, Nat.shiftRight_eq_div_pow]
  simp only [UInt32.reduceToNat, Nat.reduceMod, Nat.reducePow, UInt32.toNat_zero]
  omega

/-- The fold loop, by induction on the passes it may take: each makes the sum
smaller, so `sum` of them are enough. -/
theorem foldCarry_toNat {passes : Nat} {sum : UInt32} (h : sum.toNat ≤ passes) :
    (foldCarry passes sum).toNat = OnesComplement.value 65536 sum.toNat := by
  induction passes generalizing sum with
  | zero =>
    have h0 : sum.toNat = 0 := by omega
    simp [foldCarry, h0, OnesComplement.value]
  | succ passes ih =>
    unfold foldCarry
    split
    · rename_i hs
      exact (OnesComplement.value_of_lt (shiftRight_eq_zero.mp hs)).symm
    · rename_i hs
      have hlt := OnesComplement.carry_lt (B := 65536) (by decide)
        (Nat.le_of_not_lt (mt shiftRight_eq_zero.mpr hs))
      rw [ih (by rw [foldCarry_pass]; omega), foldCarry_pass, OnesComplement.value_carry _ (by decide)]

/-- The accumulator once the words and the left-over byte are added. -/
def accumulator (host : ByteOrder) (data : List UInt8) : UInt32 :=
  let (sum, n) := sumWords host data 0
  if 0 < n then sum + (data.getD (n - 1) 0).toUInt32 else sum

theorem calculateChecksum_accumulator (host : ByteOrder) (data : List UInt8) :
    calculateChecksum host data =
      (~~~ foldCarry (accumulator host data).toNat (accumulator host data)).toUInt16 := rfl

/-- The accumulator does not wrap. -/
theorem accumulator_toNat (host : ByteOrder) {data : List UInt8} (h : data.length ≤ 131074) :
    (accumulator host data).toNat = exactSum host data := by
  have hlt := exactSum_lt host h
  obtain ⟨h₁, h₂⟩ := sumWords_eq host data 0
  rw [UInt32.toNat_zero, Nat.zero_add] at h₁
  simp only [accumulator, h₂]
  unfold exactSum at hlt ⊢
  split at hlt
  · rename_i ho
    simp only [ho, Nat.lt_add_one, ↓reduceIte, UInt32.toNat_add, h₁, UInt8.toNat_toUInt32, Nat.sub_self]
    omega
  · rename_i he
    simp only [show data.length % 2 = 0 by omega, Nat.lt_irrefl, ↓reduceIte, h₁, Nat.zero_ne_one]
    omega

/-- The checksum of a buffer of up to 131074 bytes. -/
theorem calculateChecksum_toNat (host : ByteOrder) {data : List UInt8} (h : data.length ≤ 131074) :
    (calculateChecksum host data).toNat = 65535 - OnesComplement.value 65536 (exactSum host data) := by
  have hv := OnesComplement.value_lt (B := 65536) (exactSum host data) (by decide)
  rw [calculateChecksum_accumulator, UInt32.toNat_toUInt16, UInt32.toNat_not, foldCarry_toNat (Nat.le_refl _),
    accumulator_toNat host h, UInt32.size]
  omega

/-- Two buffers with the same checksum. -/
theorem calculateChecksum_eq_iff (host : ByteOrder) {data data' : List UInt8}
    (h : data.length ≤ 131074) (h' : data'.length ≤ 131074) :
    calculateChecksum host data = calculateChecksum host data' ↔
      OnesComplement.value 65536 (exactSum host data) = OnesComplement.value 65536 (exactSum host data') := by
  have hv := OnesComplement.value_lt (B := 65536) (exactSum host data) (by decide)
  have hv' := OnesComplement.value_lt (B := 65536) (exactSum host data') (by decide)
  rw [← UInt16.toNat_inj, calculateChecksum_toNat host h, calculateChecksum_toNat host h']
  omega

/-! ## The checksum of a packet -/

theorem checksummed_eq (d : Vector UInt8 LDP_PACKET_SIZE) :
    checksummed d = [d[2], d[3], d[4], d[5], d[6], d[7], d[8], d[9], d[10], d[11], d[12], d[13], d[14]] := by
  apply List.ext_getElem
  · simp [checksummed, LDP_PACKET_SIZE]
  · intro i h _
    simp only [checksummed, List.length_take, List.length_drop, Vector.length_toList] at h
    have hi : i < 13 := by omega
    simp only [checksummed, List.getElem_take, List.getElem_drop, Vector.getElem_toList]
    interval_cases i <;> rfl

theorem length_checksummed (d : Vector UInt8 LDP_PACKET_SIZE) : (checksummed d).length = 13 := by
  rw [checksummed_eq]; rfl

/-- The sum over a packet: six words, and the flags again. -/
theorem exactSum_checksummed (host : ByteOrder) (d : Vector UInt8 LDP_PACKET_SIZE) :
    exactSum host (checksummed d) =
      (host.load d[2] d[3]).toNat + d[2].toNat + (host.load d[4] d[5]).toNat +
        (host.load d[6] d[7]).toNat + (host.load d[8] d[9]).toNat + (host.load d[10] d[11]).toNat +
        (host.load d[12] d[13]).toNat := by
  rw [checksummed_eq]
  simp only [exactSum, wordSum, List.length_cons, List.length_nil, List.getD_cons_zero]
  simp only [↓reduceIte]
  omega

end Ldp.LDPPacket
