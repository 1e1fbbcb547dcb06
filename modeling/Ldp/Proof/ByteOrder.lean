import Ldp.Proof.Detection

/-!
# The checksum on hosts of either byte order

Each field is converted to the order of the network, but `calculateChecksum` adds
words in the order of the host, and the checksum is converted as if it were a field.
Exchanging the bytes of the words exchanges those of their sum, so what a host of the
one order writes as the checksum is what one of the other order does exactly if the
bytes at even and those at odd offsets have the same sum modulo 257
(`calculateChecksum_little_eq_big_iff`); only such packets are the same on the wire,
and understood by the other (`encode_little_eq_big_iff`).
-/

namespace Ldp.LDPPacket

open Framework

/-- The sums of the first and of the second bytes of the words of a buffer. -/
def byteSums : List UInt8 → Nat × Nat
  | b₀ :: b₁ :: data => (b₀.toNat + (byteSums data).1, b₁.toNat + (byteSums data).2)
  | _ => (0, 0)

/-- The first bytes are the low ones on a little-endian host, the high ones on a
big-endian host. -/
theorem wordSum_byteSums : ∀ data : List UInt8,
    wordSum .little data = (byteSums data).1 + 256 * (byteSums data).2 ∧
      wordSum .big data = 256 * (byteSums data).1 + (byteSums data).2
  | [] => ⟨rfl, rfl⟩
  | [_] => ⟨rfl, rfl⟩
  | b₀ :: b₁ :: data => by
    obtain ⟨hl, hb⟩ := wordSum_byteSums data
    simp only [wordSum, byteSums, load_toNat, hl, hb]
    omega

/-- The checksums of a buffer on hosts of either byte order. -/
theorem calculateChecksum_little_eq_big_iff {data : List UInt8} (h : data.length ≤ 131074) :
    calculateChecksum .little data = calculateChecksum .big data ↔
      (byteSums data).1 % 257 = (byteSums data).2 % 257 := by
  have hv := OnesComplement.value_lt (B := 65536) (exactSum .little data) (by decide)
  have hv' := OnesComplement.value_lt (B := 65536) (exactSum .big data) (by decide)
  have hvalue : calculateChecksum .little data = calculateChecksum .big data ↔
      OnesComplement.value 65536 (exactSum .little data) =
        OnesComplement.value 65536 (exactSum .big data) := by
    rw [← UInt16.toNat_inj, calculateChecksum_toNat .little h, calculateChecksum_toNat .big h]
    omega
  obtain ⟨hl, hb⟩ := wordSum_byteSums data
  rw [hvalue, OnesComplement.value_eq_value_iff (by decide), exactSum, exactSum, hl, hb]
  generalize (if data.length % 2 = 1 then (data.getD 0 0).toNat else 0) = last
  -- the difference of the sums is 255 times that of the two kinds of bytes, and 65535 is 255 times 257
  omega

/-- The bytes after the checksum that begin a word, and those that end one, have the same
sum modulo 257. -/
def Balanced (p : LDPPacket) : Prop := (byteSums p.fields).1 % 257 = (byteSums p.fields).2 % 257

theorem balanced_iff {p : LDPPacket} : p.Balanced ↔ p.wireChecksum .little = p.wireChecksum .big :=
  (calculateChecksum_little_eq_big_iff (by simp [fields])).symm

/-- Then the wire form is the same on all hosts. -/
theorem Balanced.wire_eq {p : LDPPacket} (h : p.Balanced) (host host' : ByteOrder) :
    p.wire host = p.wire host' := by
  have he : p.wireChecksum host = p.wireChecksum host' := by
    have hb := balanced_iff.mp h
    cases host <;> cases host'
    · rfl
    · exact hb
    · exact hb.symm
    · rfl
  simp only [wire, he]

/-- Exactly the balanced packets are encoded to the same bytes on little-endian and on
big-endian hosts, and exactly these are decoded, uncorrupted, on hosts of either byte
order whichever encoded them. -/
theorem encode_little_eq_big_iff (p : LDPPacket) :
    ((∀ buffer buffer', (p.encode .little buffer).map (·.buffer) = (p.encode .big buffer').map (·.buffer)) ↔
      p.Balanced) ∧
    ((∀ host host' buffer n, ∃ e, p.encode host buffer = some e ∧
        decode host' e.buffer n = some { p with checksum := e.packet.checksum, isCorrupted := false }) ↔
      p.Balanced) := by
  refine ⟨⟨fun h => ?_, fun h buffer buffer' => ?_⟩, fun h => ?_, fun h host host' buffer n => ?_⟩
  · have he := h (Vector.replicate 15 0) (Vector.replicate 15 0)
    rw [encode_eq, encode_eq, Option.map_some, Option.map_some, Option.some.injEq] at he
    have h0 : hiByte (p.wireChecksum .little) = hiByte (p.wireChecksum .big) := congrArg (·.get 0) he
    have h1 : loByte (p.wireChecksum .little) = loByte (p.wireChecksum .big) := congrArg (·.get 1) he
    rw [balanced_iff, ← ofBytes_hiByte_loByte (p.wireChecksum .little), h0, h1, ofBytes_hiByte_loByte]
  · rw [encode_eq, encode_eq, Option.map_some, Option.map_some, h.wire_eq .little .big]
  · obtain ⟨e, he, hd⟩ := h .little .big (Vector.replicate 15 0) 8
    rw [encode_eq, Option.some.injEq] at he
    subst he
    rw [decode_eq, Option.some.injEq] at hd
    -- the checksum that was sent is compared with that of the other host
    have hc : decide (ofBytes (hiByte (p.wireChecksum .little)) (loByte (p.wireChecksum .little)) ≠
      p.wireChecksum .big) = false := congrArg isCorrupted hd
    rw [ofBytes_hiByte_loByte, decide_eq_false_iff_not, not_not] at hc
    exact balanced_iff.mpr hc
  · refine ⟨_, encode_eq host p buffer, ?_⟩
    have he : p.wireChecksum host' = p.wireChecksum host := by
      have hw := congrArg (decoded host') (h.wire_eq host' host)
      rw [decoded_wire] at hw
      exact (congrArg checksum hw).trans (ofBytes_hiByte_loByte _)
    rw [decode_eq, h.wire_eq host host', decoded_wire, he]

/-- The packet of the message `hi` differs on the wire, and is corrupted for the other host. -/
theorem hi_little_ne_big :
    (hiPacket.encode .little (Vector.replicate 15 0)).map (·.buffer) =
        some #v[148, 0, 3, 0, 123, 3, 21, 104, 105, 0, 0, 0, 0, 0, 0] ∧
      (hiPacket.encode .big (Vector.replicate 15 0)).map (·.buffer) =
        some #v[3, 145, 3, 0, 123, 3, 21, 104, 105, 0, 0, 0, 0, 0, 0] ∧
      (decode .big #v[148, 0, 3, 0, 123, 3, 21, 104, 105, 0, 0, 0, 0, 0, 0] 8).map (·.isCorrupted) =
        some true := by
  decide

end Ldp.LDPPacket
