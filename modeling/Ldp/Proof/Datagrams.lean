import Ldp.Proof.MessageQueue

/-!
# Datagrams that are not whole packets

`udpReceive` decodes its buffer without regard to how many bytes `recvfrom` has
put there, so that a shorter datagram is completed with what the buffer held, and
a longer one is cut. Exactly which datagrams cannot be accepted so: those of 15
bytes need their own checksum, and any other must not have a
checksum that fits whatever the rest of the buffer is (`Rejected`,
`wholePackets_iff`).
-/

namespace Ldp.Endpoint

open Framework LDPPacket

variable {host : ByteOrder} {d : List UInt8}

/-- The checksum that a datagram stores. -/
def stored (d : List UInt8) : UInt16 := ofBytes (d.getD 0 0) (d.getD 1 0)

/-- A datagram is accepted only if it is a whole packet with the checksum of its own
bytes, and what is queued of it does not depend on what the buffer held. -/
def WholePackets (host : ByteOrder) (d : List UInt8) : Prop :=
  (∀ s source buf s' packet, udpReceive host s source d buf = some (s', packet) →
    packet.isCorrupted = false →
      d.length = LDP_PACKET_SIZE ∧ stored d = calculateChecksum host (d.drop 2)) ∧
  ∀ (s : Endpoint) source buf buf',
    (s.arrive host source d buf .listening).map (·.receiver.held) =
      (s.arrive host source d buf' .listening).map (·.receiver.held)

/-- No content of the buffer makes the checksum of the datagram fit. With at most 12
bytes, the word at offset 12 is the buffer's and can make up any sum but zero; byte
14 is not covered by the checksum. -/
def Rejected (host : ByteOrder) (d : List UInt8) : Prop :=
  if d.length < 2 then False
  else if d.length ≤ 12 then stored d = 0xFFFF ∧ ∃ b ∈ d.drop 2, b ≠ 0
  else if d.length = 13 then ∀ b, stored d ≠ calculateChecksum host (d.drop 2 ++ [b, 0])
  else stored d ≠ calculateChecksum host ((d.drop 2).take 12 ++ [0])

theorem recvfrom_getElem (buf : Vector UInt8 LDP_PACKET_SIZE) (d : List UInt8) {i : Nat}
    (hi : i < LDP_PACKET_SIZE) : (recvfrom buf d)[i] = d[i]?.getD buf[i] := by
  rw [recvfrom, Vector.getElem_ofFn]
  rfl

theorem arrival_isCorrupted {buf : Vector UInt8 LDP_PACKET_SIZE} :
    (arrival host d buf).isCorrupted = true ↔
      ofBytes (recvfrom buf d)[0] (recvfrom buf d)[1] ≠
        calculateChecksum host (checksummed (recvfrom buf d)) := by
  simp only [arrival, decoded, decide_eq_true_eq]

/-- What the checksum is compared with, from two bytes on. -/
theorem stored_recvfrom (buf : Vector UInt8 LDP_PACKET_SIZE) (h : 2 ≤ d.length) :
    ofBytes (recvfrom buf d)[0] (recvfrom buf d)[1] = stored d := by
  rw [recvfrom_getElem buf d (by decide), recvfrom_getElem buf d (by decide), stored,
    List.getD_eq_getElem?_getD, List.getD_eq_getElem?_getD, List.getElem?_eq_getElem (by omega),
    List.getElem?_eq_getElem (by omega)]
  rfl

/-- The sum does not cover the last of 13 bytes. -/
theorem calculateChecksum_last (host : ByteOrder) {l : List UInt8} (h : l.length = 12) (b c : UInt8) :
    calculateChecksum host (l ++ [b]) = calculateChecksum host (l ++ [c]) := by
  match l, h with
  | [l0, l1, l2, l3, l4, l5, l6, l7, l8, l9, l10, l11], _ =>
    refine (calculateChecksum_eq_iff host (by simp) (by simp)).mpr (congrArg _ ?_)
    simp [exactSum, wordSum]

/-- The sum over a packet is zero exactly if the bytes that it covers are. -/
theorem exactSum_eq_zero (v : Vector UInt8 LDP_PACKET_SIZE) :
    exactSum host (checksummed v) = 0 ↔ ∀ i (hi : i < LDP_PACKET_SIZE), 2 ≤ i → i < 14 → v[i] = 0 := by
  rw [exactSum_checksummed]
  simp only [Nat.add_eq_zero_iff, load_eq_zero, ← UInt8.toNat_inj, UInt8.toNat_zero]
  refine ⟨fun h i hi h2 h14 => ?_, fun h => ?_⟩
  · interval_cases i <;> simp_all
  · simp only [h, Nat.le_refl, Nat.reduceLeDiff, Nat.reduceLT, and_self]

/-- A buffer that holds zeros and, at offset 12, a word. -/
def bufferWith (a b : UInt8) : Vector UInt8 LDP_PACKET_SIZE :=
  #v[0, 0, 0, 0, 0, 0, 0, 0, 0, 0, 0, 0, a, b, 0]

/-- Up to 12 bytes, the word at offset 12 is the buffer's and adds to the sum of the rest. -/
theorem exactSum_bufferWith (host : ByteOrder) (h : d.length ≤ 12) (a b : UInt8) :
    exactSum host (checksummed (recvfrom (bufferWith a b) d)) =
      exactSum host (checksummed (recvfrom (bufferWith 0 0) d)) + (host.load a b).toNat := by
  have hlt : ∀ i (hi : i < LDP_PACKET_SIZE), i < 12 →
      (recvfrom (bufferWith a b) d)[i] = (recvfrom (bufferWith 0 0) d)[i] := fun i hi hi12 => by
    rw [recvfrom_getElem _ _ hi, recvfrom_getElem _ _ hi]
    congr 1
    interval_cases i <;> rfl
  have hge : ∀ (a b : UInt8) i (hi : i < LDP_PACKET_SIZE), 12 ≤ i →
      (recvfrom (bufferWith a b) d)[i] = (bufferWith a b)[i] := fun a b i hi hi12 => by
    rw [recvfrom_getElem _ _ hi, List.getElem?_eq_none (by omega)]
    rfl
  have h0 : (host.load 0 0).toNat = 0 := (load_eq_zero host).mpr ⟨rfl, rfl⟩
  simp only [exactSum_checksummed]
  rw [hge a b 12, hge a b 13, hge 0 0 12, hge 0 0 13, hlt 2, hlt 3, hlt 4, hlt 5, hlt 6, hlt 7, hlt 8, hlt 9,
    hlt 10, hlt 11] <;> try decide
  simp only [bufferWith, Vector.getElem_mk, List.getElem_toArray, List.getElem_cons_succ,
    List.getElem_cons_zero, h0, Nat.add_zero]

/-- The checksum that a sum of zero has. -/
theorem calculateChecksum_eq_max (v : Vector UInt8 LDP_PACKET_SIZE) :
    calculateChecksum host (checksummed v) = 0xFFFF ↔ exactSum host (checksummed v) = 0 := by
  have hv := OnesComplement.value_lt (B := 65536) (exactSum host (checksummed v)) (by decide)
  rw [← UInt16.toNat_inj, calculateChecksum_toNat host (by rw [length_checksummed]; decide),
    ← OnesComplement.value_eq_zero (B := 65536)]
  show 65535 - _ = 65535 ↔ _
  omega

/-- A datagram of 2 to 12 bytes can be completed to an accepted packet, unless it
stores the checksum of a sum of zero, and has a byte that is not zero. -/
theorem exists_accepted (host : ByteOrder) (h2 : 2 ≤ d.length) (h12 : d.length ≤ 12)
    (h : stored d = 0xFFFF → ∀ b ∈ d.drop 2, b = 0) :
    ∃ buf, (arrival host d buf).isCorrupted = false := by
  have hok : ∀ buf, stored d = calculateChecksum host (checksummed (recvfrom buf d)) →
      (arrival host d buf).isCorrupted = false := fun buf he => by
    rw [← Bool.not_eq_true, arrival_isCorrupted, stored_recvfrom buf h2]
    exact not_not_intro he
  by_cases hc : stored d = 0xFFFF
  · refine ⟨bufferWith 0 0, hok _ ?_⟩
    rw [hc, eq_comm, calculateChecksum_eq_max, exactSum_eq_zero]
    intro i hi hi2 hi14
    have hz : (bufferWith 0 0)[i] = 0 := by interval_cases i <;> rfl
    rw [recvfrom_getElem _ _ hi, hz]
    cases hd : d[i]? with
    | none => rfl
    | some b => exact h hc b (List.mem_of_getElem? (by rw [List.getElem?_drop, Nat.add_sub_cancel' hi2, hd]))
  · -- the word that makes up what is missing
    generalize hS : exactSum host (checksummed (recvfrom (bufferWith 0 0) d)) = S
    have hC := (stored d).toNat_lt
    have hC' : (stored d).toNat ≠ 65535 := fun e => hc (UInt16.toNat_inj.mp e)
    obtain ⟨a, b, hw⟩ := exists_load host (w := 65535 - (S + (stored d).toNat) % 65535) (by omega)
    refine ⟨bufferWith a b, hok _ ?_⟩
    have hsum := exactSum_bufferWith host h12 a b
    rw [hS, hw] at hsum
    have hvalue : OnesComplement.value 65536 (S + (65535 - (S + (stored d).toNat) % 65535)) =
        OnesComplement.value 65536 (65535 - (stored d).toNat) :=
      (OnesComplement.value_eq_value_iff (by decide)).mpr ⟨by omega, by omega⟩
    rw [OnesComplement.value_of_lt (s := 65535 - _) (by omega)] at hvalue
    rw [← UInt16.toNat_inj, calculateChecksum_toNat host (by rw [length_checksummed]; decide), hsum, hvalue]
    omega

/-- Bytes that the buffer completes a datagram with can be those of a longer datagram. -/
theorem recvfrom_append (buf : Vector UInt8 LDP_PACKET_SIZE) (d rest : List UInt8) :
    recvfrom (recvfrom buf (d ++ rest)) d = recvfrom buf (d ++ rest) := by
  apply Vector.ext; intro i hi
  rw [recvfrom_getElem _ _ hi]
  by_cases hlt : i < d.length
  · rw [recvfrom_getElem _ _ hi, List.getElem?_append_left hlt, List.getElem?_eq_getElem hlt]
    rfl
  · rw [List.getElem?_eq_none (by omega)]
    rfl

/-- A datagram of fewer than two bytes can always be completed to an accepted packet:
with zeros after its bytes, it does not store the checksum of a sum of zero. -/
theorem exists_accepted_of_short (host : ByteOrder) (h : d.length < 2) :
    ∃ buf, (arrival host d buf).isCorrupted = false := by
  generalize hpad : d ++ List.replicate (2 - d.length) 0 = pad
  have hlen : pad.length = 2 := by
    rw [← hpad, List.length_append, List.length_replicate]
    omega
  have hlow : pad.getD 1 0 = 0 := by
    rw [← hpad, List.getD_eq_getElem?_getD, List.getElem?_append_right (by omega), List.getElem?_replicate]
    split <;> rfl
  have hstored : stored pad ≠ 0xFFFF := fun e => by
    have hn : (stored pad).toNat = 65535 := congrArg UInt16.toNat e
    rw [stored, hlow, ofBytes_toNat, UInt8.toNat_zero] at hn
    omega
  obtain ⟨buf, hbuf⟩ := exists_accepted host (d := pad) (by omega) (by omega) fun e => absurd e hstored
  refine ⟨recvfrom buf pad, ?_⟩
  rwa [arrival, ← hpad, recvfrom_append, hpad, ← arrival]

theorem checksummed_recvfrom (buf : Vector UInt8 LDP_PACKET_SIZE) {i : Nat} (hi : i < 13) :
    (checksummed (recvfrom buf d))[i]? = some (d[i + 2]?.getD (buf.get ⟨i + 2, by show _ < 15; omega⟩)) := by
  rw [List.getElem?_eq_getElem (by rw [length_checksummed]; exact hi)]
  simp only [checksummed, List.getElem_take, List.getElem_drop, Vector.getElem_toList]
  rw [recvfrom_getElem _ _ (by show _ < 15; omega)]
  simp only [Nat.add_comm 2 i]
  rfl

/-- From 14 bytes on, the datagram has all the bytes that the sum covers. -/
theorem checksummed_of_le (h : 14 ≤ d.length) (buf : Vector UInt8 LDP_PACKET_SIZE) :
    ∃ b, checksummed (recvfrom buf d) = (d.drop 2).take 12 ++ [b] := by
  refine ⟨d[14]?.getD buf[14], List.ext_getElem? fun i => ?_⟩
  by_cases hi : i < 12
  · rw [checksummed_recvfrom buf (by omega), List.getElem?_append_left (by simp; omega),
      List.getElem?_take_of_lt hi, List.getElem?_drop, Nat.add_comm 2 i, List.getElem?_eq_getElem (by omega)]
    rfl
  · rw [List.getElem?_append_right (by simp; omega)]
    by_cases hi' : i = 12
    · subst hi'
      rw [checksummed_recvfrom buf (by omega)]
      simp [show min 12 (d.length - 2) = 12 by omega]
      rfl
    · rw [List.getElem?_eq_none (by rw [length_checksummed]; omega), List.getElem?_eq_none (by simp; omega)]

/-- With 13 bytes, the buffer has the last of the bytes that the sum covers. -/
theorem checksummed_of_eq (h : d.length = 13) (buf : Vector UInt8 LDP_PACKET_SIZE) :
    checksummed (recvfrom buf d) = d.drop 2 ++ [buf[13], buf[14]] := by
  refine List.ext_getElem? fun i => ?_
  by_cases hi : i < 11
  · rw [checksummed_recvfrom buf (by omega), List.getElem?_append_left (by simp; omega), List.getElem?_drop,
      Nat.add_comm 2 i, List.getElem?_eq_getElem (by omega)]
    rfl
  · rw [List.getElem?_append_right (by simp; omega)]
    by_cases hi' : i < 13
    · rw [checksummed_recvfrom buf hi', List.getElem?_eq_none (by omega), List.length_drop, h]
      interval_cases i <;> rfl
    · rw [List.getElem?_eq_none (by rw [length_checksummed]; omega), List.getElem?_eq_none (by simp; omega)]

/-- With 2 to 12 bytes, only the checksum of a sum of zero, where some byte is not, never fits. -/
theorem corrupted_iff_of_le (h2 : 2 ≤ d.length) (h12 : d.length ≤ 12) :
    (∀ buf, (arrival host d buf).isCorrupted = true) ↔ stored d = 0xFFFF ∧ ∃ b ∈ d.drop 2, b ≠ 0 := by
  constructor
  · intro hall
    by_contra hn
    obtain ⟨buf, hbuf⟩ := exists_accepted host h2 h12 fun hc b hb => by
      by_contra hne
      exact hn ⟨hc, b, hb, hne⟩
    exact Bool.false_ne_true (hbuf.symm.trans (hall buf))
  · rintro ⟨hc, b, hb, hne⟩ buf
    rw [arrival_isCorrupted, stored_recvfrom buf h2, hc]
    intro he
    rw [eq_comm, calculateChecksum_eq_max, exactSum_eq_zero] at he
    obtain ⟨i, hi, rfl⟩ := List.getElem_of_mem hb
    rw [List.length_drop] at hi
    have hz := he (2 + i) (by show _ < 15; omega) (by omega) (by omega)
    rw [recvfrom_getElem, List.getElem?_eq_getElem (by omega)] at hz
    exact hne (by rw [List.getElem_drop]; exact hz)

/-- With 13 bytes, the buffer gives the byte at offset 13. -/
theorem corrupted_iff_of_eq (h13 : d.length = 13) :
    (∀ buf, (arrival host d buf).isCorrupted = true) ↔
      ∀ b, stored d ≠ calculateChecksum host (d.drop 2 ++ [b, 0]) := by
  have hlast : ∀ b c : UInt8, calculateChecksum host (d.drop 2 ++ [b, c]) =
      calculateChecksum host (d.drop 2 ++ [b, 0]) := fun b c => by
    have := calculateChecksum_last host (l := d.drop 2 ++ [b]) (by simp [h13]) c 0
    simpa only [List.append_assoc, List.singleton_append] using this
  have hiff : ∀ buf, (arrival host d buf).isCorrupted = true ↔
      stored d ≠ calculateChecksum host (d.drop 2 ++ [buf[13], 0]) := fun buf => by
    rw [arrival_isCorrupted, stored_recvfrom buf (by omega), checksummed_of_eq h13, hlast]
  refine ⟨fun hall b => ?_, fun hall buf => (hiff buf).mpr (hall _)⟩
  exact (hiff #v[0, 0, 0, 0, 0, 0, 0, 0, 0, 0, 0, 0, 0, b, 0]).mp (hall _)

/-- From 14 bytes on, the buffer gives at most the byte that the sum does not cover. -/
theorem corrupted_iff_of_ge (h14 : 14 ≤ d.length) :
    (∀ buf, (arrival host d buf).isCorrupted = true) ↔
      stored d ≠ calculateChecksum host ((d.drop 2).take 12 ++ [0]) := by
  have hiff : ∀ buf, (arrival host d buf).isCorrupted = true ↔
      stored d ≠ calculateChecksum host ((d.drop 2).take 12 ++ [0]) := fun buf => by
    obtain ⟨b, hb⟩ := checksummed_of_le h14 buf
    rw [arrival_isCorrupted, stored_recvfrom buf (by omega), hb,
      calculateChecksum_last host (show ((d.drop 2).take 12).length = 12 by simp; omega) b 0]
  exact ⟨fun hall => (hiff blankBuffer).mp (hall _), fun hne buf => (hiff buf).mpr hne⟩

/-- A datagram is rejected exactly if it is corrupted whatever the buffer held. -/
theorem rejected_iff : Rejected host d ↔ ∀ buf, (arrival host d buf).isCorrupted = true := by
  unfold Rejected
  split
  · rename_i h2
    obtain ⟨buf, hbuf⟩ := exists_accepted_of_short host h2
    exact iff_of_false id fun hall => Bool.false_ne_true (hbuf.symm.trans (hall buf))
  · split
    · exact (corrupted_iff_of_le (by omega) (by omega)).symm
    · split
      · rename_i h13
        exact (corrupted_iff_of_eq h13).symm
      · exact (corrupted_iff_of_ge (by omega)).symm

/-! ## Whole packets -/

/-- What `udpReceive` returns, on every content of its buffer. -/
theorem udpReceive_eq (s : Endpoint) (source : Sockaddr) (buf : Vector UInt8 LDP_PACKET_SIZE) :
    udpReceive host s source d buf =
      some ({ s with
        chateeSockaddr := source
        received := s.received ++ [(source, arrival host d buf)] }, arrival host d buf) := by
  simp only [udpReceive, decode_eq, Option.bind_eq_bind, Option.bind_some]
  rfl

theorem arrive_held (s : Endpoint) (source : Sockaddr) (buf : Vector UInt8 LDP_PACKET_SIZE) :
    (s.arrive host source d buf .listening).map (·.receiver.held) =
      if s.isListening then
        some (if (arrival host d buf).isCorrupted then [] else [(arrival host d buf).payload.toList])
      else none := by
  simp only [arrive, udpReceive_eq, Option.bind_eq_bind, Option.bind_some]
  by_cases hl : s.isListening = true
  · by_cases hc : (arrival host d buf).isCorrupted = true <;> simp [hl, hc, ReceiverPc.held]
  · simp [hl]

/-- A datagram of 15 bytes fills the buffer. -/
theorem recvfrom_whole (h : d.length = LDP_PACKET_SIZE) (buf : Vector UInt8 LDP_PACKET_SIZE) :
    (recvfrom buf d).toList = d := by
  apply List.ext_getElem
  · rw [Vector.length_toList, h]
  · intro i hi hd
    rw [Vector.getElem_toList, recvfrom_getElem buf d (h ▸ hd), List.getElem?_eq_getElem hd]
    rfl

/-- Exactly the datagrams of 15 bytes, and those that the checksum rejects whatever
the buffer held, are accepted only as whole packets. -/
theorem wholePackets_iff (host : ByteOrder) (d : List UInt8) :
    WholePackets host d ↔ d.length = LDP_PACKET_SIZE ∨ Rejected host d := by
  by_cases h : d.length = LDP_PACKET_SIZE
  · refine iff_of_true ⟨?_, ?_⟩ (.inl h)
    · intro s source buf s' packet he hc
      rw [udpReceive_eq, Option.some.injEq, Prod.mk.injEq] at he
      obtain ⟨-, rfl⟩ := he
      rw [← Bool.not_eq_true, arrival_isCorrupted, ne_eq, not_not, stored_recvfrom buf (h ▸ by decide),
        checksummed, recvfrom_whole h buf, List.take_of_length_le (by simp [h])] at hc
      exact ⟨h, hc⟩
    · intro s source buf buf'
      have he : recvfrom buf d = recvfrom buf' d :=
        Vector.toList_inj.mp ((recvfrom_whole h buf).trans (recvfrom_whole h buf').symm)
      rw [arrive_held, arrive_held, arrival, arrival, he]
  · rw [or_iff_right h, rejected_iff]
    refine ⟨?_, fun hall => ⟨?_, ?_⟩⟩
    · rintro ⟨hacc, -⟩ buf
      by_contra hc
      exact h (hacc (raw true peerAddress 0) peerAddress buf _ _ (udpReceive_eq _ _ _)
        (Bool.not_eq_true _ ▸ hc)).1
    · intro s source buf s' packet he hc
      rw [udpReceive_eq, Option.some.injEq, Prod.mk.injEq] at he
      obtain ⟨-, rfl⟩ := he
      exact absurd (hall buf) (by rw [hc]; exact Bool.false_ne_true)
    · intro s source buf buf'
      simp only [arrive_held, hall, ↓reduceIte]

/-- The empty datagram, after a packet that the buffer still holds, is that packet again. -/
theorem empty_datagram_accepted :
    ((chatter false peerAddress peerAddress 1).arrive .little peerAddress []
        #v[148, 0, 3, 0, 123, 3, 21, 104, 105, 0, 0, 0, 0, 0, 0] .listening).map (·.receiver.held) =
      some [[104, 105, 0, 0, 0, 0, 0, 0]] ∧
    ((chatter false peerAddress peerAddress 1).arrive .little peerAddress [] blankBuffer
        .listening).map (·.receiver.held) = some [] ∧
    ¬ WholePackets .little [] := by
  refine ⟨by decide, by decide, fun h => ?_⟩
  have hsame := h.2 (chatter false peerAddress peerAddress 1) peerAddress
    #v[148, 0, 3, 0, 123, 3, 21, 104, 105, 0, 0, 0, 0, 0, 0] blankBuffer
  exact absurd hsame (by decide)

end Ldp.Endpoint
