import Ldp.Proof.Codec
import Mathlib.Algebra.BigOperators.Intervals

/-!
# Which alterations of a datagram the checksum detects

A datagram that differs from an encoded packet in one byte, or inside one word at
an even offset, decodes as corrupted, with two exceptions (`decode_corrupted_iff`).
`calculateChecksum` adds the first byte of its range again where it means the last
one, so the last byte of the payload is not covered at all, and the flags are
counted twice, so that a change of the flags can cancel one of the high byte of
`seqNumber` in the same word, or (on a big-endian host) be a multiple of 65535 by
itself (`Cancels`).
-/

namespace Ldp.LDPPacket

open Framework

/-- `d` differs from `w` in exactly one byte. -/
def AltersByte (w d : Vector UInt8 LDP_PACKET_SIZE) : Prop :=
  ∃ i : Fin LDP_PACKET_SIZE, d[i] ≠ w[i] ∧ ∀ j : Fin LDP_PACKET_SIZE, j ≠ i → d[j] = w[j]

/-- The word at offset `2 * k` is `0x0000` in one of `w`, `d` and `0xFFFF` in the other. -/
def Exchanged (k : Nat) (w d : Vector UInt8 LDP_PACKET_SIZE) : Prop :=
  (∀ j : Fin LDP_PACKET_SIZE, j.val / 2 = k → w[j] = 0 ∧ d[j] = 255) ∨
    (∀ j : Fin LDP_PACKET_SIZE, j.val / 2 = k → w[j] = 255 ∧ d[j] = 0)

/-- `d` differs from `w` only inside the 16-bit word at an even offset, and not by
the exchange of `0x0000` and `0xFFFF`. -/
def AltersWord (w d : Vector UInt8 LDP_PACKET_SIZE) : Prop :=
  ∃ k < 7, d ≠ w ∧ (∀ j : Fin LDP_PACKET_SIZE, j.val / 2 ≠ k → d[j] = w[j]) ∧ ¬ Exchanged k w d

/-- The change of the word at offset 2, the flags and the high byte of `seqNumber`,
that leaves the sum the same modulo 65535. -/
def Cancels (host : ByteOrder) (p : LDPPacket) (d : Vector UInt8 LDP_PACKET_SIZE) : Prop :=
  (host = .little ∧ (d.get 2).toNat = p.flags.toNat + 128 ∧
      (d.get 3).toNat + 1 = (hiByte p.seqNumber).toNat) ∨
    (host = .big ∧ p.flags = 0 ∧ d.get 2 = 255 ∧ d.get 3 = hiByte p.seqNumber ∧
      ∃ b ∈ p.fields.take 12, b ≠ 0)

/-- Congruent sums of at most two words' size differ by 0 or 65535. -/
theorem mod_eq_mod {x y : Nat} (hx : x < 131070) (hy : y < 131070) :
    x % 65535 = y % 65535 ↔ x = y ∨ x = y + 65535 ∨ y = x + 65535 := by
  omega

theorem flags_le (p : LDPPacket) : p.flags.toNat ≤ 7 := by
  unfold flags
  cases p.isAck <;> cases p.isSeq <;> cases p.isTheLastPacketOfTheMessage <;> decide

/-- The sum is zero exactly if the bytes it covers are: all but the last. -/
theorem exactSum_eq_zero_iff (host : ByteOrder) (d : Vector UInt8 LDP_PACKET_SIZE) :
    exactSum host (checksummed d) = 0 ↔ ∀ b ∈ (checksummed d).take 12, b = 0 := by
  have hf : d[2].toNat = 0 ↔ d[2] = 0 := by rw [← UInt8.toNat_inj, UInt8.toNat_zero]
  rw [exactSum_checksummed, checksummed_eq]
  simp only [Nat.add_eq_zero_iff, load_eq_zero, hf, List.take_succ_cons, List.take_zero,
    List.mem_cons, List.not_mem_nil, or_false, forall_eq_or_imp, forall_eq]
  tauto

/-- A datagram with the checksum of `p`, whose sum differs from that of `p` in the
part `x` for `y`. -/
theorem checksum_ne_iff {host : ByteOrder} {p : LDPPacket} {d : Vector UInt8 LDP_PACKET_SIZE}
    {r x y : Nat} (h0 : d[0] = (p.wire host)[0]) (h1 : d[1] = (p.wire host)[1])
    (hd : exactSum host (checksummed d) = r + x) (hw : exactSum host p.fields = r + y) :
    ofBytes d[0] d[1] ≠ calculateChecksum host (checksummed d) ↔
      ¬ (x % 65535 = y % 65535 ∧ (r + x = 0 ↔ r + y = 0)) := by
  have hs : ofBytes d[0] d[1] = calculateChecksum host p.fields := by
    rw [h0, h1]; exact ofBytes_hiByte_loByte _
  rw [hs, ne_eq, eq_comm, calculateChecksum_eq_iff host (by rw [length_checksummed]; decide)
    (by simp [fields]), hd, hw, OnesComplement.value_add_eq_iff _ _ _ (by decide)]

/-- A changed word that is counted once is detected, unless `0x0000` and `0xFFFF`
are exchanged. -/
theorem checksum_ne_of_word {host : ByteOrder} {p : LDPPacket} {d : Vector UInt8 LDP_PACKET_SIZE}
    {r : Nat} {a b a' b' : UInt8} (h0 : d[0] = (p.wire host)[0]) (h1 : d[1] = (p.wire host)[1])
    (hd : exactSum host (checksummed d) = r + (host.load a' b').toNat)
    (hw : exactSum host p.fields = r + (host.load a b).toNat) (hne : ¬ (a' = a ∧ b' = b))
    (hup : ¬ ((a = 0 ∧ b = 0) ∧ a' = 255 ∧ b' = 255)) (hdown : ¬ ((a = 255 ∧ b = 255) ∧ a' = 0 ∧ b' = 0)) :
    ofBytes d[0] d[1] ≠ calculateChecksum host (checksummed d) := by
  rw [checksum_ne_iff h0 h1 hd hw]
  rintro ⟨hm, -⟩
  have hx := load_le host a' b'
  have hy := load_le host a b
  rcases (mod_eq_mod (by omega) (by omega)).mp hm with h | h | h
  · exact hne (load_eq_load h)
  · exact hup ⟨(load_eq_zero host).mp (by omega), (load_eq_max host).mp (by omega)⟩
  · exact hdown ⟨(load_eq_max host).mp (by omega), (load_eq_zero host).mp (by omega)⟩

/-- A change of the flags and the high byte of `seqNumber`. -/
theorem checksum_ne_iff_not_cancels {host : ByteOrder} {p : LDPPacket}
    {d : Vector UInt8 LDP_PACKET_SIZE} {r : Nat} (h0 : d[0] = (p.wire host)[0])
    (h1 : d[1] = (p.wire host)[1])
    (hd : exactSum host (checksummed d) = r + ((host.load d[2] d[3]).toNat + d[2].toNat))
    (hw : exactSum host p.fields = r + ((host.load p.flags (hiByte p.seqNumber)).toNat + p.flags.toNat))
    (hne : ¬ (d[2] = p.flags ∧ d[3] = hiByte p.seqNumber)) :
    ofBytes d[0] d[1] ≠ calculateChecksum host (checksummed d) ↔ ¬ Cancels host p d := by
  have hz : (∃ b ∈ p.fields.take 12, b ≠ 0) ↔ exactSum host p.fields ≠ 0 := by
    rw [← checksummed_wire host p, ne_eq, exactSum_eq_zero_iff]; push Not; rfl
  rw [checksum_ne_iff h0 h1 hd hw, not_iff_not]
  have hf := flags_le p
  have h2 := d[2].toNat_lt; have h3 := d[3].toNat_lt; have hs := (hiByte p.seqNumber).toNat_lt
  rw [hw] at hz
  have hget2 : d.get 2 = d[2] := rfl
  have hget3 : d.get 3 = d[3] := rfl
  simp only [← UInt8.toNat_inj] at hne
  cases host with
  | little =>
    simp only [load_toNat, Cancels, hget2, hget3, true_and, reduceCtorEq, false_and, or_false]
    generalize d[2].toNat = f' at *
    generalize d[3].toNat = s' at *
    generalize p.flags.toNat = f at *
    generalize (hiByte p.seqNumber).toNat = s at *
    rw [mod_eq_mod (by omega) (by omega)]
    omega
  | big =>
    simp only [Cancels, hget2, hget3, true_and, reduceCtorEq, false_and, false_or, hz, ← UInt8.toNat_inj,
      UInt8.toNat_zero, UInt8.reduceToNat, load_toNat]
    generalize d[2].toNat = f' at *
    generalize d[3].toNat = s' at *
    generalize p.flags.toNat = f at *
    generalize (hiByte p.seqNumber).toNat = s at *
    rw [mod_eq_mod (by omega) (by omega)]
    omega

/-- An alteration, of one byte or of one word, is inside a word at an even offset. -/
theorem alters_cases {w d : Vector UInt8 LDP_PACKET_SIZE} (h : AltersByte w d ∨ AltersWord w d) :
    ∃ k < 8, d ≠ w ∧ (∀ j : Fin LDP_PACKET_SIZE, j.val / 2 ≠ k → d[j] = w[j]) ∧
      (k < 7 → ¬ Exchanged k w d) := by
  rcases h with ⟨i, hi, hj⟩ | ⟨k, hk, hne, hj, hx⟩
  · have hlt : i.val < 15 := i.isLt
    refine ⟨i.val / 2, by omega, fun e => hi (by rw [e]), fun j hji => hj j fun e => hji (by rw [e]), ?_⟩
    intro hk
    -- the other byte of the word is the same in `w` and `d`
    have hlt' : 4 * (i.val / 2) + 1 - i.val < LDP_PACKET_SIZE := by show _ < 15; omega
    have hother := hj ⟨4 * (i.val / 2) + 1 - i.val, hlt'⟩ fun e => by
      have := congrArg Fin.val e; simp only at this; omega
    have hhalf : (4 * (i.val / 2) + 1 - i.val) / 2 = i.val / 2 := by omega
    rintro (hx | hx) <;>
    · obtain ⟨h1, h2⟩ := hx ⟨_, hlt'⟩ hhalf
      rw [h1, h2] at hother
      exact absurd hother (by decide)
  · exact ⟨k, by omega, hne, hj, fun _ => hx⟩

/-- Byte `j` of a datagram. -/
def byteAt (d : Vector UInt8 LDP_PACKET_SIZE) (j : Nat) : UInt8 := d[j]?.getD 0

theorem byteAt_eq (d : Vector UInt8 LDP_PACKET_SIZE) (j : Fin LDP_PACKET_SIZE) : byteAt d j = d[j] := by
  simp [byteAt]

/-- What the word at offset `2 * k` adds to the sum. -/
def contribution (host : ByteOrder) (d : Vector UInt8 LDP_PACKET_SIZE) (k : Nat) : Nat :=
  (host.load (byteAt d (2 * k)) (byteAt d (2 * k + 1))).toNat + if k = 1 then (byteAt d 2).toNat else 0

theorem exactSum_contributions (host : ByteOrder) (d : Vector UInt8 LDP_PACKET_SIZE) :
    exactSum host (checksummed d) = ∑ k ∈ Finset.Icc 1 6, contribution host d k := by
  rw [exactSum_checksummed]
  simp [Finset.sum_Icc_succ_top, contribution, byteAt]
  rfl

/-- Two datagrams that agree outside the word at offset `2 * k`: the other words add
the same. -/
theorem contribution_congr (host : ByteOrder) {w d : Vector UInt8 LDP_PACKET_SIZE} {k j : Nat}
    (h : ∀ j : Fin LDP_PACKET_SIZE, j.val / 2 ≠ k → d[j] = w[j]) (hj : j ∈ Finset.Icc 1 6)
    (hjk : j ≠ k) : contribution host d j = contribution host w j := by
  have hb : ∀ j, j < 15 → j / 2 ≠ k → byteAt d j = byteAt w j := fun j hj hjk => by
    have := h ⟨j, hj⟩ hjk
    rwa [← byteAt_eq, ← byteAt_eq] at this
  rw [Finset.mem_Icc] at hj
  simp only [contribution]
  rw [hb (2 * j) (by omega) (by omega), hb (2 * j + 1) (by omega) (by omega)]
  split
  · rw [hb 2 (by omega) (by omega)]
  · rfl

/-- Their sums differ in what the word at offset `2 * k` adds. -/
theorem exactSum_of_agree (host : ByteOrder) {w d : Vector UInt8 LDP_PACKET_SIZE} {k : Nat}
    (hk : k ∈ Finset.Icc 1 6) (h : ∀ j : Fin LDP_PACKET_SIZE, j.val / 2 ≠ k → d[j] = w[j]) :
    ∃ r, exactSum host (checksummed d) = r + contribution host d k ∧
      exactSum host (checksummed w) = r + contribution host w k := by
  refine ⟨∑ j ∈ (Finset.Icc 1 6).erase k, contribution host w j, ?_, ?_⟩
  · rw [exactSum_contributions, ← Finset.sum_erase_add _ _ hk]
    congr 1
    refine Finset.sum_congr rfl fun j hj => contribution_congr host h (Finset.mem_of_mem_erase hj) ?_
    exact Finset.ne_of_mem_erase hj
  · rw [exactSum_contributions, ← Finset.sum_erase_add _ _ hk]

/-- Different datagrams that agree outside a word differ in it. -/
theorem word_ne {w d : Vector UInt8 LDP_PACKET_SIZE} {k : Nat} (hne : d ≠ w)
    (h : ∀ j : Fin LDP_PACKET_SIZE, j.val / 2 ≠ k → d[j] = w[j]) :
    ¬ (byteAt d (2 * k) = byteAt w (2 * k) ∧ byteAt d (2 * k + 1) = byteAt w (2 * k + 1)) := by
  rintro ⟨h0, h1⟩
  refine hne (Vector.ext fun j hj => ?_)
  by_cases hjk : j / 2 = k
  · have e := byteAt_eq d ⟨j, hj⟩
    have e' := byteAt_eq w ⟨j, hj⟩
    rcases (by omega : j = 2 * k ∨ j = 2 * k + 1) with rfl | rfl
    · exact e.symm.trans (h0.trans e')
    · exact e.symm.trans (h1.trans e')
  · exact h ⟨j, hj⟩ hjk

/-- A word of two equal bytes in `w`, and one in `d`. -/
theorem forall_of_word {w d : Vector UInt8 LDP_PACKET_SIZE} {k : Nat} {x y : UInt8}
    (hw : byteAt w (2 * k) = x ∧ byteAt w (2 * k + 1) = x)
    (hd : byteAt d (2 * k) = y ∧ byteAt d (2 * k + 1) = y) :
    ∀ j : Fin LDP_PACKET_SIZE, j.val / 2 = k → w[j] = x ∧ d[j] = y := by
  intro j hjk
  rw [← byteAt_eq w j, ← byteAt_eq d j]
  rcases (by omega : j.val = 2 * k ∨ j.val = 2 * k + 1) with he | he
  · rw [he]
    exact ⟨hw.1, hd.1⟩
  · rw [he]
    exact ⟨hw.2, hd.2⟩

/-- Where the flags are unchanged, nothing cancels. -/
theorem not_cancels {host : ByteOrder} {p : LDPPacket} {d : Vector UInt8 LDP_PACKET_SIZE}
    (h : d.get 2 = p.flags) : ¬ Cancels host p d := by
  rintro (⟨-, h2, -⟩ | ⟨-, h0, h2, -⟩)
  · rw [h] at h2
    omega
  · rw [h, h0] at h2
    exact absurd h2 (by decide)

theorem eq_bytes_of_ofBytes {a b : UInt8} {v : UInt16} (h : ofBytes a b = v) :
    a = hiByte v ∧ b = loByte v := by
  have := a.toNat_lt; have := b.toNat_lt
  subst h
  refine ⟨UInt8.toNat_inj.mp ?_, UInt8.toNat_inj.mp ?_⟩ <;>
  · simp only [hiByte_toNat, loByte_toNat, ofBytes_toNat]
    omega

section Words

variable {host : ByteOrder} {p : LDPPacket} {d : Vector UInt8 LDP_PACKET_SIZE}

/-- A change of the stored checksum: the sum is the same. -/
theorem checksum_ne_of_stored (hne : d ≠ p.wire host)
    (h : ∀ j : Fin LDP_PACKET_SIZE, j.val / 2 ≠ 0 → d[j] = (p.wire host)[j]) :
    ofBytes d[0] d[1] ≠ calculateChecksum host (checksummed d) := by
  have hc : checksummed d = p.fields := by
    rw [← checksummed_wire host p, checksummed_eq, checksummed_eq]
    have hb : ∀ j (hj15 : j < 15), 2 ≤ j → d.get ⟨j, hj15⟩ = (p.wire host).get ⟨j, hj15⟩ :=
      fun j hj15 h2 => h ⟨j, hj15⟩ (by simp only; omega)
    exact List.ext_getElem rfl fun i hi _ => by
      simp only [List.length_cons, List.length_nil] at hi
      interval_cases i <;> exact hb _ (by decide) (by decide)
  rw [hc]
  exact fun he => word_ne hne h (eq_bytes_of_ofBytes he)

/-- A change of the last byte, which the sum does not cover. -/
theorem checksum_eq_of_last (h : ∀ j : Fin LDP_PACKET_SIZE, j.val / 2 ≠ 7 → d[j] = (p.wire host)[j]) :
    ofBytes d[0] d[1] = calculateChecksum host (checksummed d) := by
  have h0 : d[0] = (p.wire host)[0] := h ⟨0, by decide⟩ (by decide)
  have h1 : d[1] = (p.wire host)[1] := h ⟨1, by decide⟩ (by decide)
  have hs : exactSum host (checksummed d) = exactSum host p.fields := by
    rw [← checksummed_wire host p, exactSum_contributions, exactSum_contributions]
    exact Finset.sum_congr rfl fun j hj =>
      contribution_congr host h hj (by rw [Finset.mem_Icc] at hj; omega)
  by_contra hc
  exact (checksum_ne_iff (x := 0) (y := 0) h0 h1 hs rfl).mp hc ⟨rfl, Iff.rfl⟩

/-- A change of a word that the sum covers. -/
theorem checksum_ne_iff_of_word {k : Nat} (hk : 1 ≤ k ∧ k ≤ 6) (hne : d ≠ p.wire host)
    (h : ∀ j : Fin LDP_PACKET_SIZE, j.val / 2 ≠ k → d[j] = (p.wire host)[j])
    (hx : ¬ Exchanged k (p.wire host) d) :
    ofBytes d[0] d[1] ≠ calculateChecksum host (checksummed d) ↔ ¬ Cancels host p d := by
  have hword := word_ne hne h
  have h0 : d[0] = (p.wire host)[0] := h ⟨0, by decide⟩ (by simp only; omega)
  have h1 : d[1] = (p.wire host)[1] := h ⟨1, by decide⟩ (by simp only; omega)
  obtain ⟨r, hd, hw⟩ := exactSum_of_agree host (Finset.mem_Icc.mpr hk) h
  rw [checksummed_wire] at hw
  by_cases hk1 : k = 1
  · subst hk1
    exact checksum_ne_iff_not_cancels h0 h1 hd hw hword
  · have h2 : d.get 2 = p.flags := h ⟨2, by decide⟩ (by simp only; omega)
    simp only [contribution, hk1, ↓reduceIte, Nat.add_zero] at hd hw
    refine iff_of_true (checksum_ne_of_word h0 h1 hd hw hword ?_ ?_) (not_cancels h2)
    · rintro ⟨hw, hd⟩
      exact hx (.inl (forall_of_word hw hd))
    · rintro ⟨hw, hd⟩
      exact hx (.inr (forall_of_word hw hd))

end Words

/-- A datagram that differs from an encoded packet in one byte, or inside one word
at an even offset (other than by the exchange of `0x0000` and `0xFFFF`), is decoded
as corrupted exactly if the last byte, which ends the payload, is unchanged and the
change does not cancel in the flags and the high byte of `seqNumber`. -/
theorem decode_corrupted_iff {host : ByteOrder} {p : LDPPacket} {buffer d : Vector UInt8 LDP_PACKET_SIZE}
    {e : Encoded} (he : p.encode host buffer = some e) (n : Nat)
    (h : AltersByte e.buffer d ∨ AltersWord e.buffer d) :
    (∃ q, decode host d n = some q ∧ q.isCorrupted = true) ↔
      d[14] = e.buffer[14] ∧ ¬ Cancels host p d := by
  rw [encode_eq, Option.some.injEq] at he
  subst he
  obtain ⟨k, hk, hne, hj, hx⟩ := alters_cases h
  rw [decode_eq]
  simp only [Option.some.injEq, exists_eq_left', decoded, decide_eq_true_eq]
  rcases (by omega : k = 0 ∨ k = 7 ∨ 1 ≤ k ∧ k ≤ 6) with rfl | rfl | hk'
  · have h14 : d[14] = (p.wire host)[14] := hj ⟨14, by decide⟩ (by decide)
    have h2 : d.get 2 = p.flags := hj ⟨2, by decide⟩ (by decide)
    exact iff_of_true (checksum_ne_of_stored hne hj) ⟨h14, not_cancels h2⟩
  · refine iff_of_false (fun hc => hc (checksum_eq_of_last hj)) fun hlast => ?_
    exact word_ne hne hj ⟨hlast.1, rfl⟩
  · have h14 : d[14] = (p.wire host)[14] := hj ⟨14, by decide⟩ (by simp only; omega)
    rw [and_iff_right h14]
    exact checksum_ne_iff_of_word hk' hne hj (hx (by omega))

/-- The packet of the message `hi`, in memory that was zero. -/
def hiPacket : LDPPacket :=
  ⟨0, true, true, false, 123, 789, #v[104, 105, 0, 0, 0, 0, 0, 0], false⟩

/-- A change of the flags that does not cancel is detected. -/
theorem decode_corrupted_hi :
    (∃ q, decode .little ((hiPacket.wire .little).set 2 7) 8 = some q ∧ q.isCorrupted = true) ↔
      ((hiPacket.wire .little).set 2 7)[14] = (hiPacket.wire .little)[14] ∧
        ¬ Cancels .little hiPacket ((hiPacket.wire .little).set 2 7) :=
  decode_corrupted_iff (encode_eq .little hiPacket (Vector.replicate 15 0)) 8
    (.inl ⟨2, by decide, by decide⟩)

/-- The last byte of the payload can be altered undetected. -/
theorem decode_last_byte_undetected :
    (hiPacket.encode .little (Vector.replicate 15 0)).map (·.buffer) =
        some #v[148, 0, 3, 0, 123, 3, 21, 104, 105, 0, 0, 0, 0, 0, 0] ∧
      AltersByte #v[148, 0, 3, 0, 123, 3, 21, 104, 105, 0, 0, 0, 0, 0, 0]
        #v[148, 0, 3, 0, 123, 3, 21, 104, 105, 0, 0, 0, 0, 0, 1] ∧
      (decode .little #v[148, 0, 3, 0, 123, 3, 21, 104, 105, 0, 0, 0, 0, 0, 1] 8).map (·.isCorrupted) =
        some false := by
  refine ⟨by decide, ⟨14, by decide, by decide⟩, by decide⟩

end Ldp.LDPPacket
