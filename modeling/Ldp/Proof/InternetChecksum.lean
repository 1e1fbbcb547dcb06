import Ldp.Proof.Checksum

/-!
# Accumulation, folding, and the Internet checksum

Up to 131074 bytes the 32-bit accumulator holds the exact sum at every point of the
word loop and after the left-over byte, and the fold loop takes at most two passes
(`calculateChecksum_accumulates`). On a little-endian host the result is the Internet
checksum of the buffer exactly if it has an even length, or its last byte, which is
the one left over, is the same as its first, which is the one that is added
(`calculateChecksum_eq_internetChecksum_iff`).
-/

namespace Ldp.LDPPacket

open Framework

/-! ## The two loops -/

/-- After an even number of bytes, the word loop goes on with the rest. -/
theorem sumWords_append (host : ByteOrder) (rest : List UInt8) : ∀ (front : List UInt8) (sum : UInt32),
    front.length % 2 = 0 →
      sumWords host (front ++ rest) sum = sumWords host rest (sumWords host front sum).1
  | [], _, _ => rfl
  | [_], _, h => absurd h Nat.one_ne_zero
  | b₀ :: b₁ :: front, sum, h => by
    have h' : front.length % 2 = 0 := (Nat.add_mod_right front.length 2).symm.trans h
    simpa only [List.cons_append, sumWords] using
      sumWords_append host rest front (sum + (host.load b₀ b₁).toUInt32) h'

theorem sumWords_toNat (host : ByteOrder) {data : List UInt8} (h : data.length ≤ 131074) :
    (sumWords host data 0).1.toNat = wordSum host data := by
  have hw := wordSum_le host data
  rw [(sumWords_eq host data 0).1, UInt32.toNat_zero, Nat.zero_add, Nat.mod_eq_of_lt (by omega)]

theorem foldCarry_of_shiftRight {sum : UInt32} (h : sum >>> 16 = 0) (passes : Nat) :
    foldCarry passes sum = sum := by
  cases passes with
  | zero => rfl
  | succ passes => rw [foldCarry, if_pos h]

/-- Two passes of the fold loop are enough for any sum. -/
theorem foldCarry_two (sum : UInt32) : foldCarry 2 sum >>> 16 = 0 := by
  have hlt := OnesComplement.carry_carry_lt (B := 65536) (by decide) sum.toNat_lt
  rw [foldCarry]
  split
  · assumption
  · rw [foldCarry]
    split
    · assumption
    · rw [foldCarry, shiftRight_eq_zero, foldCarry_pass, foldCarry_pass]
      exact hlt

/-- What it leaves after any number of passes from there on is the same. -/
theorem foldCarry_add (passes : Nat) : ∀ (more : Nat) (sum : UInt32),
    foldCarry passes sum >>> 16 = 0 → foldCarry (passes + more) sum = foldCarry passes sum := by
  induction passes with
  | zero =>
    intro more sum h
    rw [foldCarry] at h ⊢
    exact foldCarry_of_shiftRight h _
  | succ passes ih =>
    intro more sum h
    rw [Nat.add_right_comm]
    unfold foldCarry at h ⊢
    split
    · rfl
    · rename_i hs
      rw [if_neg hs] at h
      exact ih more _ h

/-- The value that the complement is taken of. -/
theorem calculateChecksum_foldCarry (host : ByteOrder) (data : List UInt8) :
    calculateChecksum host data = (~~~ foldCarry 2 (accumulator host data)).toUInt16 := by
  rw [calculateChecksum_accumulator]
  by_cases h : 2 ≤ (accumulator host data).toNat
  · obtain ⟨more, hm⟩ := Nat.exists_eq_add_of_le h
    rw [hm, foldCarry_add 2 more _ (foldCarry_two _)]
  · have hs : accumulator host data >>> 16 = 0 := shiftRight_eq_zero.mpr (by omega)
    rw [foldCarry_of_shiftRight hs, foldCarry_of_shiftRight hs]

/-- The accumulator is exact, after any number of words and at the end; the fold loop
is over after two passes, and what it leaves is what is complemented; so the checksum
is the negative of the sum modulo 65535, in the representation that is `0xFFFF` only if
the sum is zero. -/
theorem calculateChecksum_accumulates (host : ByteOrder) {data : List UInt8} (h : data.length ≤ 131074) :
    (∀ front rest, data = front ++ rest → front.length % 2 = 0 →
      sumWords host data 0 = sumWords host rest (sumWords host front 0).1 ∧
        (sumWords host front 0).1.toNat = wordSum host front) ∧
    (accumulator host data).toNat = exactSum host data ∧
    foldCarry 2 (accumulator host data) >>> 16 = 0 ∧
    calculateChecksum host data = (~~~ foldCarry 2 (accumulator host data)).toUInt16 ∧
    ((calculateChecksum host data).toNat + exactSum host data) % 65535 = 0 ∧
    (calculateChecksum host data = 0xFFFF ↔ exactSum host data = 0) := by
  have hc := calculateChecksum_toNat host h
  have hv := OnesComplement.value_lt (B := 65536) (exactSum host data) (by decide)
  refine ⟨?_, accumulator_toNat host h, foldCarry_two _, calculateChecksum_foldCarry host data, ?_, ?_⟩
  · rintro front rest rfl he
    rw [List.length_append] at h
    exact ⟨sumWords_append host rest front 0 he, sumWords_toNat host (by omega)⟩
  · have hm := OnesComplement.value_mod 65536 (exactSum host data)
    rw [hc]
    omega
  · rw [← UInt16.toNat_inj, hc, ← OnesComplement.value_eq_zero (B := 65536)]
    show 65535 - _ = 65535 ↔ _
    omega

/-- A buffer of one word and a left-over byte. -/
theorem calculateChecksum_accumulates_three :
    (accumulator .little [1, 2, 3]).toNat = 514 ∧
      ((calculateChecksum .little [1, 2, 3]).toNat + exactSum .little [1, 2, 3]) % 65535 = 0 := by
  have h := calculateChecksum_accumulates .little (show ([1, 2, 3] : List UInt8).length ≤ 131074 by decide)
  exact ⟨h.2.1, h.2.2.2.2.1⟩

/-! ## The Internet checksum -/

/-- The consecutive 16-bit words of a buffer, the last one padded with a zero byte. -/
def paddedWords (host : ByteOrder) : List UInt8 → List Nat
  | b₀ :: b₁ :: data => (host.load b₀ b₁).toNat :: paddedWords host data
  | [b] => [(host.load b 0).toNat]
  | [] => []

/-- The Internet checksum, as RFC 1071 defines it: the one's complement of the
one's-complement sum of the words. -/
def internetChecksum (host : ByteOrder) (data : List UInt8) : UInt16 :=
  ~~~ UInt16.ofNat (OnesComplement.sum 65536 (paddedWords host data))

theorem paddedWords_lt (host : ByteOrder) : ∀ {data : List UInt8}, ∀ d ∈ paddedWords host data, d < 65536
  | b₀ :: b₁ :: _, d, h => by
    rcases List.mem_cons.mp h with rfl | h
    · exact (host.load b₀ b₁).toNat_lt
    · exact paddedWords_lt host d h
  | [b], d, h => by
    obtain rfl := List.mem_singleton.mp h
    exact (host.load b 0).toNat_lt

/-- On a little-endian host, the padded word is the last byte. -/
theorem paddedWords_sum : ∀ data : List UInt8,
    (paddedWords .little data).sum =
      wordSum .little data + if data.length % 2 = 1 then (data.getLastD 0).toNat else 0
  | [] => rfl
  | [b] => by simp [paddedWords, wordSum, load_toNat]
  | b₀ :: b₁ :: data => by
    rw [paddedWords, List.sum_cons, paddedWords_sum data, wordSum, List.length_cons, List.length_cons,
      Nat.add_assoc, Nat.add_assoc _ 1 1, Nat.add_mod_right]
    by_cases h : data.length % 2 = 1
    · cases data with
      | nil => exact absurd h (by decide)
      | cons b data => rfl
    · simp only [h, ↓reduceIte]

theorem internetChecksum_toNat (host : ByteOrder) (data : List UInt8) :
    (internetChecksum host data).toNat =
      65535 - OnesComplement.value 65536 (paddedWords host data).sum := by
  have hv := OnesComplement.value_lt (B := 65536) (paddedWords host data).sum (by decide)
  rw [internetChecksum, OnesComplement.sum_eq (by decide) (paddedWords_lt host), UInt16.toNat_not,
    UInt16.toNat_ofNat', UInt16.size, Nat.mod_eq_of_lt hv]

/-- On a little-endian host, `calculateChecksum` is the Internet checksum exactly of the
buffers of even length, and of those whose last byte is the same as the first. -/
theorem calculateChecksum_eq_internetChecksum_iff {data : List UInt8} (h : data.length ≤ 131074) :
    calculateChecksum .little data = internetChecksum .little data ↔
      data.length % 2 = 0 ∨ data.head? = data.getLast? := by
  have hv := OnesComplement.value_lt (B := 65536) (exactSum .little data) (by decide)
  have hv' := OnesComplement.value_lt (B := 65536) (paddedWords .little data).sum (by decide)
  have hvalue : calculateChecksum .little data = internetChecksum .little data ↔
      OnesComplement.value 65536 (exactSum .little data) =
        OnesComplement.value 65536 (paddedWords .little data).sum := by
    rw [← UInt16.toNat_inj, calculateChecksum_toNat .little h, internetChecksum_toNat]
    omega
  rw [hvalue, paddedWords_sum, exactSum]
  by_cases ho : data.length % 2 = 1
  · cases data with
    | nil => exact absurd ho (by decide)
    | cons b data =>
      have hlast : (b :: data).getLast? = some ((b :: data).getLastD 0) := by
        rw [List.getLastD_eq_getLast?, List.getLast?_cons, Option.getD_some]
      rw [if_pos ho, if_pos ho, OnesComplement.value_add_eq_iff _ _ _ (by decide), or_iff_right (by omega),
        hlast, List.head?_cons, List.getD_cons_zero, Option.some.injEq, ← UInt8.toNat_inj]
      generalize (b :: data).getLastD 0 = l
      have hb := b.toNat_lt
      have hl := l.toNat_lt
      omega
  · have he : data.length % 2 = 0 := by omega
    exact iff_of_true (by rw [if_neg ho, if_neg ho]) (.inl he)

/-- Three bytes, of which the last is the same as the first. -/
theorem calculateChecksum_eq_internetChecksum_iff_three :
    calculateChecksum .little [1, 2, 1] = internetChecksum .little [1, 2, 1] ↔
      ([1, 2, 1] : List UInt8).length % 2 = 0 ∨ ([1, 2, 1] : List UInt8).head? = [1, 2, 1].getLast? :=
  calculateChecksum_eq_internetChecksum_iff (by decide)

/-- In the last word, the first byte of the buffer is added for the last. -/
theorem first_byte_added_for_last :
    calculateChecksum .little [1, 2, 3] = 0xFDFD ∧ internetChecksum .little [1, 2, 3] = 0xFDFB := by
  decide

end Ldp.LDPPacket
