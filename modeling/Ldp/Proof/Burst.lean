import Ldp.Framework.Burst
import Ldp.Proof.Detection
import Ldp.Proof.Leakage
import Ldp.Proof.Noise

/-!
# Which bursts the checksum detects

A datagram as a number, first byte highest. Modulo 65535 it is, up to factors that are powers of
two and what the burst leaves as it is, the sum that `calculateChecksum` adds up, in either byte
order (`exactSum_modEq_iff`). So a burst of up to 16 bits, at any bit offset from `seqNumber` to
the last byte but one of the payload, is detected, unless it inverts 16 equal bits
(`decode_burst_iff`). A chat over a network whose noise is bursts of up to 15 bits there
delivers nothing that was not pushed (`burst_integrity`).
-/

namespace Ldp

open Framework

namespace LDPPacket

/-- The bytes of a datagram as one number. -/
def number (d : Vector UInt8 LDP_PACKET_SIZE) : Nat :=
  Nat.ofDigits 256 (d.toList.map UInt8.toNat).reverse

theorem number_inj {w d : Vector UInt8 LDP_PACKET_SIZE} : number w = number d ↔ w = d := by
  refine ⟨fun h => ?_, congrArg number⟩
  have hlt (v : Vector UInt8 LDP_PACKET_SIZE) : ∀ b ∈ (v.toList.map UInt8.toNat).reverse, b < 256 := by
    intro b hb
    obtain ⟨c, -, rfl⟩ := List.mem_map.mp (List.mem_reverse.mp hb)
    exact c.toNat_lt
  have hlist := Nat.ofDigits_inj_of_len_eq (by decide) (by simp) (hlt w) (hlt d) h
  rw [List.reverse_inj, List.map_inj_right fun _ _ => UInt8.toNat_inj.mp] at hlist
  exact Vector.toList_inj.mp hlist

/-- The words at the offsets from 2 to 12, high byte first; the one at 12 is the lowest. -/
def words (d : Vector UInt8 LDP_PACKET_SIZE) : List Nat :=
  [12, 10, 8, 6, 4, 2].map fun j => (ofBytes (byteAt d j) (byteAt d (j + 1))).toNat

theorem words_eq (d : Vector UInt8 LDP_PACKET_SIZE) :
    words d = [(ofBytes d[12] d[13]).toNat, (ofBytes d[10] d[11]).toNat, (ofBytes d[8] d[9]).toNat,
      (ofBytes d[6] d[7]).toNat, (ofBytes d[4] d[5]).toNat, (ofBytes d[2] d[3]).toNat] := rfl

theorem number_eq (d : Vector UInt8 LDP_PACKET_SIZE) :
    number d = d[14].toNat + 256 * Nat.ofDigits 65536 (words d ++ [(ofBytes d[0] d[1]).toNat]) := by
  have hlist : d.toList = [d[0], d[1], d[2], d[3], d[4], d[5], d[6], d[7], d[8], d[9], d[10], d[11], d[12],
      d[13], d[14]] := by
    apply List.ext_getElem
    · simp [LDP_PACKET_SIZE]
    · intro i h _
      rw [Vector.length_toList] at h
      rw [Vector.getElem_toList]
      interval_cases i <;> rfl
  have hpair (a b r : Nat) : b + 256 * (a + 256 * r) = 256 * a + b + 65536 * r := by omega
  rw [number, hlist]
  simp only [List.map_cons, List.map_nil, List.reverse_cons, List.reverse_nil, List.nil_append,
    List.cons_append, Nat.ofDigits_cons, Nat.ofDigits_nil, words_eq, ofBytes_toNat, hpair]

/-- The bytes below bit 8 and from bit 96 on are the last one and the first three. -/
theorem number_mod (d : Vector UInt8 LDP_PACKET_SIZE) : number d % 2 ^ 8 = d[14].toNat := by
  have hlt := d[14].toNat_lt
  rw [number_eq]
  omega

theorem number_div (d : Vector UInt8 LDP_PACKET_SIZE) :
    number d / 2 ^ 96 = d[2].toNat + 256 * (d[1].toNat + 256 * d[0].toNat) := by
  have h3 := d[3].toNat_lt; have h4 := (ofBytes d[4] d[5]).toNat_lt; have h6 := (ofBytes d[6] d[7]).toNat_lt
  have h8 := (ofBytes d[8] d[9]).toNat_lt; have h10 := (ofBytes d[10] d[11]).toNat_lt
  have h12 := (ofBytes d[12] d[13]).toNat_lt; have h14 := d[14].toNat_lt
  rw [number_eq]
  simp only [words_eq, List.cons_append, List.nil_append, Nat.ofDigits_cons, Nat.ofDigits_nil]
  rw [ofBytes_toNat d[0], ofBytes_toNat d[2]]
  omega

/-- What the words count for in the sum: on a little-endian host, exchanging the bytes of a word
multiplies it by 256. -/
def weight : ByteOrder → Nat
  | .little => 256
  | .big => 1

theorem exactSum_modEq (host : ByteOrder) (d : Vector UInt8 LDP_PACKET_SIZE) :
    exactSum host (checksummed d) ≡ weight host * Nat.ofDigits 65536 (words d) + d[2].toNat [MOD 65535] := by
  have hsum : Nat.ofDigits 65536 (words d) ≡ (words d).sum [MOD 65535] :=
    Burst.ofDigits_modEq_sum (by decide) (words d)
  refine Nat.ModEq.trans ?_ ((hsum.symm.mul_left (weight host)).add_right d[2].toNat)
  rw [exactSum_checksummed]
  simp only [words_eq, List.sum_cons, List.sum_nil, ofBytes_toNat, load_toNat, Nat.ModEq]
  cases host with
  | little =>
    simp only [weight]
    omega
  | big =>
    simp only [weight]
    omega

variable {host : ByteOrder} {p : LDPPacket} {w d : Vector UInt8 LDP_PACKET_SIZE} {s n : Nat}

/-- What a burst in `seqNumber`, `ackNumber` and the payload but for its last byte leaves as it is. -/
theorem outside_burst (h : Burst.Within s n (number w) (number d)) (hs : 8 ≤ s ∧ s + n ≤ 96) :
    d[0] = w[0] ∧ d[1] = w[1] ∧ d[2] = w[2] ∧ d[14] = w[14] := by
  have hmod : number w % 2 ^ 8 = number d % 2 ^ 8 := by
    rw [← Nat.mod_mod_of_dvd _ (Nat.pow_dvd_pow 2 hs.1), h.mod_eq,
      Nat.mod_mod_of_dvd _ (Nat.pow_dvd_pow 2 hs.1)]
  have hdiv := h.div_eq hs.2
  rw [number_mod, number_mod] at hmod
  rw [number_div, number_div] at hdiv
  have h0 := w[0].toNat_lt; have h1 := w[1].toNat_lt; have h2 := w[2].toNat_lt
  have h0' := d[0].toNat_lt; have h1' := d[1].toNat_lt; have h2' := d[2].toNat_lt
  refine ⟨UInt8.toNat_inj.mp ?_, UInt8.toNat_inj.mp ?_, UInt8.toNat_inj.mp ?_,
    UInt8.toNat_inj.mp hmod.symm⟩ <;> omega

/-- Two datagrams that agree outside the words have congruent sums exactly if they are
congruent as numbers. -/
theorem exactSum_modEq_iff (host : ByteOrder) (h0 : d[0] = w[0]) (h1 : d[1] = w[1]) (h2 : d[2] = w[2])
    (h14 : d[14] = w[14]) :
    exactSum host (checksummed d) ≡ exactSum host (checksummed w) [MOD 65535] ↔
      number d ≡ number w [MOD 65535] := by
  have hweight : (65535).gcd (weight host) = 1 := by cases host <;> decide
  have hd := exactSum_modEq host d
  have hw := exactSum_modEq host w
  rw [h2] at hd
  rw [number_eq d, number_eq w, h0, h1, h14, Nat.ofDigits_append, Nat.ofDigits_append]
  constructor
  · intro h
    have hwords := Nat.ModEq.add_right_cancel' _ (hd.symm.trans (h.trans hw))
    exact ((hwords.cancel_left_of_coprime hweight).add_right _).mul_left _ |>.add_left _
  · intro h
    have hwords := Nat.ModEq.add_right_cancel' _
      ((Nat.ModEq.add_left_cancel' _ h).cancel_left_of_coprime (by decide))
    exact hd.trans (((hwords.mul_left _).add_right _).trans hw.symm)

/-- All the bytes that the checksum covers are zero. -/
def Blank (d : Vector UInt8 LDP_PACKET_SIZE) : Prop := ∀ b ∈ (checksummed d).take 12, b = 0

/-- Datagrams that are blank differ outside the words. -/
theorem Blank.eq (hw : Blank w) (hd : Blank d) (h0 : d[0] = w[0]) (h1 : d[1] = w[1]) (h14 : d[14] = w[14]) :
    d = w := by
  rw [Blank, checksummed_eq] at hw hd
  simp only [List.take_succ_cons, List.take_zero, List.forall_mem_cons, List.not_mem_nil, false_implies,
    implies_true, and_true] at hw hd
  obtain ⟨w2, w3, w4, w5, w6, w7, w8, w9, w10, w11, w12, w13⟩ := hw
  obtain ⟨d2, d3, d4, d5, d6, d7, d8, d9, d10, d11, d12, d13⟩ := hd
  apply Vector.ext; intro i hi
  interval_cases i <;> simp only [*]

/-- The checksum of `p` after a burst of up to 16 bits. -/
theorem checksum_ne_iff_of_burst (h : Burst.Within s 16 (number (p.wire host)) (number d))
    (hs : 8 ≤ s ∧ s + 16 ≤ 96) :
    ofBytes d[0] d[1] ≠ calculateChecksum host (checksummed d) ↔
      d ≠ p.wire host ∧ (Burst.Inverted s 16 (number (p.wire host)) (number d) →
        Blank (p.wire host) ∨ Blank d) := by
  obtain ⟨h0, h1, h2, h14⟩ := outside_burst h hs
  have hstored : ofBytes d[0] d[1] = calculateChecksum host (checksummed (p.wire host)) := by
    rw [h0, h1, checksummed_wire]; exact ofBytes_hiByte_loByte _
  have hlen (v : Vector UInt8 LDP_PACKET_SIZE) : (checksummed v).length ≤ 131074 := by
    rw [length_checksummed]; decide
  have hmod : exactSum host (checksummed d) % 65535 = exactSum host (checksummed (p.wire host)) % 65535 ↔
      p.wire host = d ∨ Burst.Inverted s 16 (number (p.wire host)) (number d) := by
    rw [← number_inj, ← h.modEq_iff (by decide)]
    exact (exactSum_modEq_iff host h0 h1 h2 h14).trans Nat.ModEq.comm
  have hd : exactSum host (checksummed d) = 0 ↔ Blank d := exactSum_eq_zero_iff host d
  have hw : exactSum host (checksummed (p.wire host)) = 0 ↔ Blank (p.wire host) := exactSum_eq_zero_iff host _
  rw [hstored, ne_eq, eq_comm, calculateChecksum_eq_iff host (hlen _) (hlen _),
    OnesComplement.value_eq_value_iff (by decide), hmod, hd, hw]
  by_cases he : d = p.wire host
  · subst he
    simp only [true_or, true_and, not_true, ne_eq, false_and]
  · -- the two are not blank together
    have hzero : (Blank d ↔ Blank (p.wire host)) ↔ ¬ (Blank (p.wire host) ∨ Blank d) := by
      refine ⟨fun hiff hor => ?_, fun hnot =>
        ⟨fun hbd => absurd (.inr hbd) hnot, fun hbw => absurd (.inl hbw) hnot⟩⟩
      rcases hor with hbw | hbd
      · exact he (hbw.eq (hiff.mpr hbw) h0 h1 h14)
      · exact he ((hiff.mp hbd).eq hbd h0 h1 h14)
    have hne : p.wire host ≠ d := fun h => he h.symm
    simp only [hne, false_or, ne_eq, he, not_false_eq_true, true_and, hzero, not_and_not_right]

/-- A burst of up to 16 bits, anywhere from the first bit of `seqNumber` to the last of
`payload[6]`, is decoded as corrupted, unless it has set 16 clear bits or cleared 16 set ones, and
neither datagram is blank. -/
theorem decode_burst_iff {buffer : Vector UInt8 LDP_PACKET_SIZE} {e : Encoded}
    (he : p.encode host buffer = some e) (n : Nat)
    (h : Burst.Within s 16 (number e.buffer) (number d)) (hs : 8 ≤ s ∧ s + 16 ≤ 96) :
    (∃ q, decode host d n = some q ∧ q.isCorrupted = true) ↔
      d ≠ e.buffer ∧ (Burst.Inverted s 16 (number e.buffer) (number d) → Blank e.buffer ∨ Blank d) := by
  rw [encode_eq, Option.some.injEq] at he
  subst he
  rw [decode_eq]
  simp only [Option.some.injEq, exists_eq_left', decoded, decide_eq_true_eq]
  exact checksum_ne_iff_of_burst h hs

/-- The `h` and `i` of a packet, which are in two words, and the two bytes after its NUL. -/
theorem decode_burst_hi :
    (∃ q, decode .little (((hiPacket.wire .little).set 7 105).set 8 104) 8 = some q ∧ q.isCorrupted = true) ∧
      ¬ ∃ q, decode .little (((hiPacket.wire .little).set 10 255).set 11 255) 8 = some q ∧
        q.isCorrupted = true := by
  have he := encode_eq .little hiPacket (Vector.replicate 15 0)
  have hswap := decode_burst_iff (s := 48) he 8 (d := ((hiPacket.wire .little).set 7 105).set 8 104)
    (by decide) (by decide)
  have hinvert := decode_burst_iff (s := 24) he 8 (d := ((hiPacket.wire .little).set 10 255).set 11 255)
    (by decide) (by decide)
  refine ⟨hswap.mpr ⟨by decide, fun hi => absurd hi (by decide)⟩, fun h => ?_⟩
  rcases (hinvert.mp h).2 (by decide) with hb | hb
  · exact absurd (hb 3 (by decide)) (by decide)
  · exact absurd (hb 3 (by decide)) (by decide)

/-- A burst of up to 15 bits there is detected. -/
theorem decoded_burst (h : Burst.Within s 15 (number (p.wire host)) (number d)) (hs : 8 ≤ s ∧ s + 15 ≤ 96)
    (hne : d ≠ p.wire host) : (decoded host d).isCorrupted = true := by
  -- one more bit to a side makes it one of 16
  have hwide : Burst.Within (if s = 81 then 80 else s) 16 (number (p.wire host)) (number d) :=
    h.mono (by split <;> omega) (by split <;> omega)
  have hcorrupted := (checksum_ne_iff_of_burst hwide (by split <;> omega)).mpr
    ⟨hne, fun hi => absurd hi (h.not_inverted (by decide))⟩
  simpa only [decoded, decide_eq_true_eq] using hcorrupted

end LDPPacket

namespace NoisyChat

variable {net : Network} {c : Chat} {party : Side → Party} {evs : List Event}

/-- An alteration is a burst of up to 15 bits in a datagram as it was sent. -/
def IsBurst (c : Chat) : Event → Prop
  | .chat _ => True
  | .alter side i d =>
    ∃ x ∈ (c.endpoint side.other).sent, (c.inFlight side)[i]? = some x.datagram ∧ d ≠ x.datagram ∧
      ∃ s, 8 ≤ s ∧ s + 15 ≤ 96 ∧
        Burst.Within s 15 (LDPPacket.number x.datagram) (LDPPacket.number d)

theorem alter_corrupted (h : run (step net) (.start party) evs = some c)
    (hb : AllSteps (step net) IsBurst (.start party) evs) (side : Side) (i : Nat)
    (d : Vector UInt8 LDP_PACKET_SIZE) (he : .alter side i d ∈ evs) :
    (LDPPacket.decoded net.host d).isCorrupted = true := by
  refine forall_of_allSteps (Q := fun e => ∀ side i d, e = .alter side i d →
    (LDPPacket.decoded net.host d).isCorrupted = true) ?_ hb h _ he side i d rfl
  rintro before e u hu hburst side i d rfl
  obtain ⟨x, hx, -, hne, s, hs, hs', hwithin⟩ := hburst
  obtain ⟨evs', hu'⟩ := endpoint_run hu side.other
  rw [Endpoint.datagram_eq_wire hu' x hx] at hne hwithin
  exact LDPPacket.decoded_burst hwithin ⟨hs, hs'⟩ hne

/-- Over a network that may drop, duplicate and reorder datagrams, and alter each once by a burst
of up to 15 bits from `seqNumber` to the last byte but one of the payload, everything delivered
was pushed on the other side; without duplicates and overtaking, in the same order. -/
theorem burst_integrity (h : run (step net) (.start party) evs = some c)
    (hb : AllSteps (step net) IsBurst (.start party) evs) (side : Side) :
    (∀ m ∈ (c.endpoint side.other).delivered, m ∈ (c.endpoint side).pushedPayloads) ∧
      (net.faults.duplicates = false → net.faults.reorders = false →
        (c.endpoint side.other).delivered.Sublist (c.endpoint side).pushedPayloads) := by
  have halter := alter_corrupted h hb side.other
  refine ⟨fun m hm => ?_, fun hdup hre => delivered_in_order h side hdup hre halter⟩
  rcases mem_delivered h side m hm with hm | ⟨i, d, he, hintact, -⟩
  · exact hm
  · exact absurd (hintact.symm.trans (halter i d he)) Bool.false_ne_true

/-- What happens beside alterations is no matter. -/
theorem allSteps_chat (c : Chat) (evs : List Chat.Event) :
    AllSteps (step net) IsBurst c (evs.map .chat) := by
  induction evs generalizing c with
  | nil => trivial
  | cons e evs ih => exact ⟨trivial, fun c' _ => ih c'⟩

/-- The datagram of `hi` and a burst in it, of the last bit of `h` and the first of `i`. -/
def hiSent : Vector UInt8 LDP_PACKET_SIZE :=
  #v[227, 167, 3, 0, 123, 3, 21, 104, 105, 0, 0, 88, 88, 88, 88]
def hiBurst : Vector UInt8 LDP_PACKET_SIZE :=
  #v[227, 167, 3, 0, 123, 3, 21, 105, 233, 0, 0, 88, 88, 88, 88]

/-- The message whose datagram is altered is not delivered, and the one after it is. -/
theorem burst_integrity_hi :
    ∃ c, run (step Chat.hiNetwork) (.start Chat.hiParty)
        (hiAltered hiBurst (.deliver .right 0 blankBuffer :: Chat.hiEvents)) = some c ∧
      (c.endpoint .right).received.map (·.2.isCorrupted) = [true, false] ∧
      (c.endpoint .right).delivered = [[104, 105, 0, 0, 88, 88, 88, 88]] ∧
      ∀ m ∈ (c.endpoint .right).delivered, m ∈ (c.endpoint .left).pushedPayloads := by
  have hsent : ∃ u,
      run (step Chat.hiNetwork) (.start Chat.hiParty) ((Chat.hiEvents.take 13).map .chat) = some u ∧
      ∃ x ∈ (u.endpoint .left).sent, (u.inFlight .right)[0]? = some x.datagram ∧ x.datagram = hiSent :=
    ⟨_, rfl, by decide⟩
  have hburst : AllSteps (step Chat.hiNetwork) IsBurst (.start Chat.hiParty)
      (hiAltered hiBurst (.deliver .right 0 blankBuffer :: Chat.hiEvents)) := by
    obtain ⟨u, hu, x, hx, hflight, hdatagram⟩ := hsent
    refine allSteps_append.mpr ⟨allSteps_chat _ _, fun u' hu' => ⟨?_, fun c _ => allSteps_chat c _⟩⟩
    obtain rfl := Option.some.inj (hu.symm.trans hu')
    refine ⟨x, hx, hflight, ?_, 55, by decide, by decide, ?_⟩ <;> rw [hdatagram] <;> decide
  exact ⟨_, rfl, by decide, by decide, (burst_integrity (show run (step Chat.hiNetwork) (.start Chat.hiParty)
    (hiAltered hiBurst (.deliver .right 0 blankBuffer :: Chat.hiEvents)) = _ from rfl) hburst .left).1⟩

end NoisyChat
end Ldp
