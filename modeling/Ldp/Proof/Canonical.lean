import Ldp.Proof.Detection

/-!
# Encoding what was decoded

Every buffer of 15 bytes decodes, and encoding the packet again writes the same bytes
from the flags on, except for the five bits of the flags byte that `decode` ignores,
and a checksum that fits them (`wire_decoded`). So the buffer comes back exactly if it
is not corrupted and those bits are zero, and what comes back in any case is such a
buffer (`encode_decode`).
-/

namespace Ldp.LDPPacket

/-- The bits of a byte, as `decode` takes them out. -/
theorem bits_toNat (b : UInt8) :
    (decide (b &&& 1 ≠ 0)).toNat = b.toNat % 2 ∧ (decide ((b >>> 1) &&& 1 ≠ 0)).toNat = b.toNat / 2 % 2 ∧
      (decide ((b >>> 2) &&& 1 ≠ 0)).toNat = b.toNat / 4 % 2 := by
  have hbit : ∀ c : UInt8, (decide (c &&& 1 ≠ 0)).toNat = c.toNat % 2 := fun c => by
    have hc : (c &&& 1).toNat = c.toNat % 2 := by
      rw [UInt8.toNat_and]
      exact Nat.and_one_is_mod _
    have hne : c &&& 1 ≠ 0 ↔ c.toNat % 2 = 1 := by
      rw [ne_eq, ← UInt8.toNat_inj, hc, UInt8.toNat_zero, Nat.mod_two_not_eq_zero]
    by_cases h : c &&& 1 ≠ 0
    · rw [decide_eq_true h, hne.mp h, Bool.toNat_true]
    · rw [decide_eq_false h, Bool.toNat_false]
      have := mt hne.mpr h
      omega
  refine ⟨hbit b, ?_, ?_⟩ <;>
  · rw [hbit, UInt8.toNat_shiftRight, Nat.shiftRight_eq_div_pow]
    rfl

theorem flags_toNat (p : LDPPacket) :
    p.flags.toNat = p.isAck.toNat + 2 * p.isSeq.toNat + 4 * p.isTheLastPacketOfTheMessage.toNat := by
  unfold flags
  cases p.isAck <;> cases p.isSeq <;> cases p.isTheLastPacketOfTheMessage <;> decide

theorem and_seven_toNat (b : UInt8) : (b &&& 7).toNat = b.toNat % 8 := by
  rw [UInt8.toNat_and]
  exact Nat.and_two_pow_sub_one_eq_mod _ 3

/-- The low three bits are a byte exactly if the upper five are zero. -/
theorem and_seven_eq_iff {b : UInt8} : b &&& 7 = b ↔ b >>> 3 = 0 := by
  rw [← UInt8.toNat_inj, ← UInt8.toNat_inj, and_seven_toNat, UInt8.toNat_shiftRight,
    Nat.shiftRight_eq_div_pow]
  show b.toNat % 8 = b.toNat ↔ b.toNat / 8 = 0
  omega

variable {host : ByteOrder} {b : Vector UInt8 LDP_PACKET_SIZE}

/-- The flags of a decoded packet are the low three bits of the flags byte. -/
theorem flags_decoded : (decoded host b).flags = b.get 2 &&& 7 := by
  obtain ⟨h0, h1, h2⟩ := bits_toNat (b.get 2)
  rw [← UInt8.toNat_inj, flags_toNat, and_seven_toNat]
  show (decide (b.get 2 &&& 1 ≠ 0)).toNat + 2 * (decide ((b.get 2 >>> 1) &&& 1 ≠ 0)).toNat +
    4 * (decide ((b.get 2 >>> 2) &&& 1 ≠ 0)).toNat = _
  omega

/-- The fields of a decoded packet are the bytes of the buffer, but for the flags. -/
theorem fields_decoded : (decoded host b).fields = (b.get 2 &&& 7) :: (checksummed b).tail := by
  have hs := eq_bytes_of_ofBytes (rfl : ofBytes (b.get 3) (b.get 4) = _)
  have ha := eq_bytes_of_ofBytes (rfl : ofBytes (b.get 5) (b.get 6) = _)
  rw [fields, flags_decoded, checksummed_eq, List.tail_cons]
  show _ :: hiByte (ofBytes (b.get 3) (b.get 4)) :: loByte (ofBytes (b.get 3) (b.get 4)) ::
    hiByte (ofBytes (b.get 5) (b.get 6)) :: loByte (ofBytes (b.get 5) (b.get 6)) :: _ = _
  rw [← hs.1, ← hs.2, ← ha.1, ← ha.2]
  rfl

/-- Encoding what was decoded writes the flags without the bits that are ignored, and
the same bytes after them. -/
theorem wire_decoded (host : ByteOrder) (b : Vector UInt8 LDP_PACKET_SIZE) :
    ((decoded host b).wire host).get 2 = b.get 2 &&& 7 ∧
      ∀ i : Fin LDP_PACKET_SIZE, 3 ≤ i.val → ((decoded host b).wire host).get i = b.get i := by
  have h := checksummed_wire host (decoded host b)
  rw [fields_decoded, checksummed_eq, checksummed_eq, List.tail_cons] at h
  simp only [List.cons.injEq, and_true] at h
  obtain ⟨h2, h3, h4, h5, h6, h7, h8, h9, h10, h11, h12, h13, h14⟩ := h
  refine ⟨h2, fun i hi => ?_⟩
  obtain ⟨i, hlt⟩ := i
  simp only at hi
  interval_cases i <;> assumption

/-- An uncorrupted buffer without the ignored bits is the wire form of what it decodes to. -/
theorem wire_decoded_eq (hc : (decoded host b).isCorrupted = false) (hb : b.get 2 >>> 3 = 0) :
    (decoded host b).wire host = b := by
  obtain ⟨h2, h3⟩ := wire_decoded host b
  have hf : (decoded host b).fields = checksummed b := by
    rw [fields_decoded, and_seven_eq_iff.mpr hb, checksummed_eq]
    rfl
  have hsum : ofBytes b[0] b[1] = (decoded host b).wireChecksum host := by
    rw [wireChecksum, hf]
    exact not_not.mp (of_decide_eq_false hc)
  obtain ⟨h0, h1⟩ := eq_bytes_of_ofBytes hsum
  apply Vector.ext; intro i hi
  rcases (by omega : i = 0 ∨ i = 1 ∨ i = 2 ∨ 3 ≤ i) with rfl | rfl | rfl | hi3
  · exact h0.symm
  · exact h1.symm
  · exact h2.trans (and_seven_eq_iff.mpr hb)
  · exact h3 ⟨i, hi⟩ hi3

/-- Every buffer decodes. Encoding the packet again gives the buffer back exactly if it
is not corrupted and the upper five bits of its flags are zero. In any case the bytes
after the flags and the lower three bits of the flags come back, and the new buffer is
not corrupted and comes back itself. -/
theorem encode_decode (host : ByteOrder) (b : Vector UInt8 LDP_PACKET_SIZE) (n : Nat) :
    ∃ q, decode host b n = some q ∧ ∀ buffer, ∃ e, q.encode host buffer = some e ∧
      (e.buffer = b ↔ q.isCorrupted = false ∧ b.get 2 >>> 3 = 0) ∧
      (∀ i : Fin LDP_PACKET_SIZE, 3 ≤ i.val → e.buffer.get i = b.get i) ∧
      e.buffer.get 2 &&& 7 = b.get 2 &&& 7 ∧
      ∃ q', decode host e.buffer n = some q' ∧ q'.isCorrupted = false ∧
        ∀ buffer', ∃ e', q'.encode host buffer' = some e' ∧ e'.buffer = e.buffer := by
  obtain ⟨h2, h3⟩ := wire_decoded host b
  refine ⟨_, decode_eq host b n, fun buffer => ⟨_, encode_eq host _ buffer, ⟨fun h => ?_, fun h => ?_⟩,
    h3, ?_, _, decode_eq host _ n, ?_, fun buffer' => ⟨_, encode_eq host _ buffer', ?_⟩⟩⟩
  · have hw : (decoded host b).wire host = b := h
    refine ⟨?_, and_seven_eq_iff.mp ?_⟩
    · have hd := congrArg isCorrupted (decoded_wire host (decoded host b))
      rwa [hw] at hd
    · rwa [hw, eq_comm] at h2
  · exact wire_decoded_eq h.1 h.2
  · show ((decoded host b).wire host).get 2 &&& 7 = _
    rw [h2, UInt8.and_assoc]
    rfl
  · rw [decoded_wire]
  · rw [decoded_wire]
    rfl

/-- A reserved bit of the flags, which the checksum has been adjusted to, is lost. -/
example :
    ((decode .little #v[147, 240, 11, 0, 123, 3, 21, 104, 105, 0, 0, 0, 0, 0, 0] 8).bind fun q =>
      (q.encode .little (Vector.replicate 15 0)).map fun e => (q.isCorrupted, e.buffer)) =
    some (false, #v[148, 0, 3, 0, 123, 3, 21, 104, 105, 0, 0, 0, 0, 0, 0]) := by
  decide

end Ldp.LDPPacket
