import Ldp.Proof.Checksum

/-!
# Encoding and decoding packets

`encode` writes all 15 bytes, whatever the buffer held: they are the packet's
`wire` form, which is a function of the fields that are sent (`encode_eq`).
`decode` reads the fields at the same offsets (`decode_eq`), so it gets back what
was sent, uncorrupted (`decoded_wire`).
-/

namespace Ldp.LDPPacket

/-- The 13 bytes after the checksum. -/
def fields (p : LDPPacket) : List UInt8 :=
  [p.flags, hiByte p.seqNumber, loByte p.seqNumber, hiByte p.ackNumber, loByte p.ackNumber,
    p.payload[0], p.payload[1], p.payload[2], p.payload[3], p.payload[4], p.payload[5],
    p.payload[6], p.payload[7]]

/-- The checksum that `encode` calculates. -/
def wireChecksum (host : ByteOrder) (p : LDPPacket) : UInt16 := calculateChecksum host p.fields

/-- The 15 bytes that `encode` writes. -/
def wire (host : ByteOrder) (p : LDPPacket) : Vector UInt8 LDP_PACKET_SIZE :=
  #v[hiByte (p.wireChecksum host), loByte (p.wireChecksum host), p.flags, hiByte p.seqNumber,
    loByte p.seqNumber, hiByte p.ackNumber, loByte p.ackNumber, p.payload[0], p.payload[1],
    p.payload[2], p.payload[3], p.payload[4], p.payload[5], p.payload[6], p.payload[7]]

theorem checksummed_wire (host : ByteOrder) (p : LDPPacket) : checksummed (p.wire host) = p.fields := rfl

/-- A buffer with the fields written after its first two bytes becomes the wire
form once the checksum is. -/
theorem eq_wire {host : ByteOrder} {p : LDPPacket} {b : Vector UInt8 LDP_PACKET_SIZE}
    (h : checksummed b = p.fields) :
    (b.set 0 (hiByte (p.wireChecksum host))).set 1 (loByte (p.wireChecksum host)) = p.wire host := by
  rw [checksummed_eq] at h
  simp only [fields, List.cons.injEq, and_true] at h
  obtain ⟨h2, h3, h4, h5, h6, h7, h8, h9, h10, h11, h12, h13, h14⟩ := h
  apply Vector.ext; intro i hi
  simp only [Vector.getElem_set, wire]
  interval_cases i <;> simp [*]

/-- `encode` writes the wire form. -/
theorem encode_eq (host : ByteOrder) (p : LDPPacket) (buffer : Vector UInt8 LDP_PACKET_SIZE) :
    p.encode host buffer =
      some ⟨{ p with checksum := p.wireChecksum host }, p.wire host, LDP_PACKET_SIZE⟩ := by
  unfold encode
  simp only [serializeUint8_eq (show 2 < LDP_PACKET_SIZE by decide), Option.bind_eq_bind, Option.bind_some,
    serializeUint16_eq (show 3 + 1 < LDP_PACKET_SIZE by decide), Nat.reduceAdd,
    serializeUint16_eq (show 5 + 1 < LDP_PACKET_SIZE by decide)]
  generalize hb₀ : (((((buffer.set 2 p.flags).set 3 (hiByte p.seqNumber)).set 4
    (loByte p.seqNumber)).set 5 (hiByte p.ackNumber)).set 6 (loByte p.ackNumber)) = b₀
  obtain ⟨b, hb, hget⟩ := serializeCharArray_eq b₀ p.payload (show 7 + 8 ≤ LDP_PACKET_SIZE by decide)
    (Nat.le_refl 8) (by decide)
  have hc : checksummed b = p.fields := by
    rw [checksummed_eq]
    simp only [fields, hget, ← hb₀, Vector.getElem_set]
    simp
  simp only [hb, Option.bind_some, hc, serializeUint16_eq (show 0 + 1 < LDP_PACKET_SIZE by decide)]
  rw [← eq_wire hc]
  rfl

/-- The packet that `decode` reads: the fields at the offsets `encode` writes them at. -/
def decoded (host : ByteOrder) (d : Vector UInt8 LDP_PACKET_SIZE) : LDPPacket where
  checksum := ofBytes d[0] d[1]
  isAck := d[2] &&& 1 ≠ 0
  isSeq := (d[2] >>> 1) &&& 1 ≠ 0
  isTheLastPacketOfTheMessage := (d[2] >>> 2) &&& 1 ≠ 0
  seqNumber := ofBytes d[3] d[4]
  ackNumber := ofBytes d[5] d[6]
  payload := #v[d[7], d[8], d[9], d[10], d[11], d[12], d[13], d[14]]
  isCorrupted := ofBytes d[0] d[1] ≠ calculateChecksum host (checksummed d)

theorem decode_eq (host : ByteOrder) (d : Vector UInt8 LDP_PACKET_SIZE) (n : Nat) :
    decode host d n = some (decoded host d) := by
  have hp : (Vector.ofFn fun i : Fin 8 => d.get ⟨7 + i.val, Nat.add_lt_add_left i.isLt 7⟩) =
      #v[d[7], d[8], d[9], d[10], d[11], d[12], d[13], d[14]] := by
    apply Vector.ext; intro i hi
    rw [Vector.getElem_ofFn]
    interval_cases i <;> rfl
  unfold decode decoded
  rw [← hp]
  simp only [deserializeUint16_eq (show 0 + 1 < LDP_PACKET_SIZE by decide), Option.bind_eq_bind,
    Option.bind_some, deserializeUint8_eq (show 2 < LDP_PACKET_SIZE by decide), Nat.reduceAdd,
    deserializeUint16_eq (show 3 + 1 < LDP_PACKET_SIZE by decide),
    deserializeUint16_eq (show 5 + 1 < LDP_PACKET_SIZE by decide),
    deserializeCharArray_eq (show 7 + 8 ≤ LDP_PACKET_SIZE by decide) (show 8 ≤ INT_MAX by decide)]
  rfl

/-- The flags survive the packing. -/
theorem flags_bits (p : LDPPacket) :
    (p.flags &&& 1 ≠ 0 ↔ p.isAck = true) ∧ ((p.flags >>> 1) &&& 1 ≠ 0 ↔ p.isSeq = true) ∧
      ((p.flags >>> 2) &&& 1 ≠ 0 ↔ p.isTheLastPacketOfTheMessage = true) := by
  unfold flags
  cases p.isAck <;> cases p.isSeq <;> cases p.isTheLastPacketOfTheMessage <;> decide

/-- A packet's wire form decodes to the packet, uncorrupted, on a host of the same
byte order. -/
theorem decoded_wire (host : ByteOrder) (p : LDPPacket) :
    decoded host (p.wire host) = { p with checksum := p.wireChecksum host, isCorrupted := false } := by
  obtain ⟨h0, h1, h2⟩ := flags_bits p
  have hp : #v[p.payload[0], p.payload[1], p.payload[2], p.payload[3], p.payload[4], p.payload[5],
      p.payload[6], p.payload[7]] = p.payload := by
    apply Vector.ext; intro i hi
    interval_cases i <;> rfl
  rw [decoded, checksummed_wire]
  simp only [wire, Vector.getElem_mk, List.getElem_toArray, List.getElem_cons_zero,
    List.getElem_cons_succ, ofBytes_hiByte_loByte, h0, h1, h2, Bool.decide_eq_true, hp]
  simp [wireChecksum]

/-- `decode` undoes `encode`: the fields come back, uncorrupted, with the checksum
that `encode` stored; and the bytes depend neither on the checksum and corruption
mark the packet had nor on what the buffer held, so that a second encoding gives
the same bytes. -/
theorem decode_encode (host : ByteOrder) (p : LDPPacket) (buffer : Vector UInt8 LDP_PACKET_SIZE) (n : Nat) :
    ∃ e, p.encode host buffer = some e ∧ e.size = LDP_PACKET_SIZE ∧
      e.packet = { p with checksum := e.packet.checksum } ∧
      decode host e.buffer n = some { p with checksum := e.packet.checksum, isCorrupted := false } ∧
      (∀ checksum isCorrupted buffer', ∃ e',
        ({ p with checksum, isCorrupted } : LDPPacket).encode host buffer' = some e' ∧
          e'.buffer = e.buffer) ∧
      ∀ buffer', ∃ e', e.packet.encode host buffer' = some e' ∧ e'.buffer = e.buffer := by
  refine ⟨_, encode_eq host p buffer, rfl, rfl, by rw [decode_eq, decoded_wire], ?_, ?_⟩
  · exact fun checksum isCorrupted buffer' => ⟨_, encode_eq host _ buffer', rfl⟩
  · exact fun buffer' => ⟨_, encode_eq host _ buffer', rfl⟩

end Ldp.LDPPacket
