import Ldp.Framework.Framing
import Ldp.Packet
import Mathlib.Data.List.GetD

/-!
# The packets of a message

The constructor of `LDPPacket` copies up to eight bytes and, if it copied fewer,
adds a NUL; the rest of the payload is what the memory held (`ofMessage_eq`). So
the payloads of the packets that `LDP::send` makes of a message are blocks of the
message framed by its terminating NUL (`send_frames`), and a sequence of messages
without NULs can be read back from the payloads alone (`messages_send`).
-/

namespace Ldp

open Framework

namespace LDPPacket

/-- The loop of the constructor, by induction on the bytes to go: from the index
`8 - k` on it copies what there is. -/
theorem copyPayload_eq {message : List UInt8} {n k : Nat} (payload : Vector UInt8 8) (hk : k ≤ 8)
    (hi : 8 - k ≤ n) (hm : min n 8 ≤ message.length) :
    ∃ v, copyPayload message n k payload = some (v, min n 8) ∧
      ∀ j (hj : j < 8), v[j] = if 8 - k ≤ j ∧ j < n then message.getD j 0 else payload[j] := by
  induction k generalizing payload with
  | zero =>
    refine ⟨payload, by rw [copyPayload, Nat.min_eq_right hi], fun j hj => ?_⟩
    rw [if_neg (by omega)]
  | succ k ih =>
    unfold copyPayload
    by_cases hn : 7 - k < n
    · have hlt : 7 - k < message.length := by omega
      obtain ⟨v, hv, hget⟩ := ih (payload.set (7 - k) message[7 - k] (by omega)) (by omega) (by omega)
      refine ⟨v, ?_, fun j hj => ?_⟩
      · simp only [hn, ↓reduceIte, List.getElem?_eq_getElem hlt, Option.bind_eq_bind, Option.bind_some]
        exact hv
      · rw [hget j hj, Vector.getElem_set]
        by_cases he : 7 - k = j
        · subst he
          rw [if_neg (by omega), if_pos rfl, if_pos (by omega), List.getD_eq_getElem _ _ hlt]
        · rw [if_neg he]
          exact if_congr (by omega) rfl rfl
    · refine ⟨payload, ?_, fun j hj => ?_⟩
      · simp only [hn, ↓reduceIte]
        rw [show min n 8 = 7 - k by omega]
      · rw [if_neg (by omega)]

/-- The constructor, where the pointer has the bytes that it reads. -/
theorem ofMessage_eq (memory : LDPPacket) {message : List UInt8} {n : Nat}
    (hm : min n 8 ≤ message.length) :
    ∃ payload, ofMessage memory message n = some { memory with
        payload
        isCorrupted := false
        isAck := true
        isTheLastPacketOfTheMessage := false
        isSeq := true
        seqNumber := 123
        ackNumber := 789 } ∧
      ∀ j (hj : j < 8), payload[j] =
        if j < n then message.getD j 0 else if j = n then 0 else memory.payload[j] := by
  obtain ⟨v, hv, hget⟩ := copyPayload_eq memory.payload (Nat.le_refl 8) (Nat.zero_le n) hm
  refine ⟨_, by simp only [ofMessage, hv, Option.bind_eq_bind, Option.bind_some]; rfl, fun j hj => ?_⟩
  by_cases hn : n < 8
  · have hmin : min n 8 < 8 := by omega
    rw [dif_pos hmin, Vector.getElem_set, hget j hj]
    by_cases he : j = n
    · rw [if_pos (by omega), if_neg (by omega), if_pos he]
    · rw [if_neg (by omega), if_neg he]
      exact if_congr (by omega) rfl rfl
  · have hmin : ¬ min n 8 < 8 := by omega
    rw [dif_neg hmin, hget j hj, if_pos (by omega), if_pos (by omega)]

end LDPPacket

variable {message : List UInt8} {i : Nat}

/-- The memory from `messagePtr + i` on has the bytes that the constructor reads. -/
theorem min_le_cStr (h : i ≤ message.length) :
    min (message.length - i + 1) 8 ≤ ((cStr message).drop i).length := by
  simp only [cStr, List.length_drop, List.length_append, List.length_singleton]
  omega

/-- `packet` is what the constructor makes, in some memory, of the message from
index `i` on. -/
def Carries (message : List UInt8) (i : Nat) (packet : LDPPacket) : Prop :=
  ∃ memory, LDPPacket.ofMessage memory ((cStr message).drop i) (message.length - i + 1) = some packet

/-- The constructor always succeeds, as it reads nothing past the NUL. -/
theorem exists_carries (memory : LDPPacket) (h : i ≤ message.length) :
    ∃ packet,
      LDPPacket.ofMessage memory ((cStr message).drop i) (message.length - i + 1) = some packet := by
  obtain ⟨payload, hp, -⟩ := LDPPacket.ofMessage_eq memory (min_le_cStr h)
  exact ⟨_, hp⟩

/-- Byte `j` of the payload of the packet at `i`. -/
theorem ofMessage_payload {memory packet : LDPPacket} (h : i ≤ message.length)
    (hp : LDPPacket.ofMessage memory ((cStr message).drop i) (message.length - i + 1) = some packet)
    {j : Nat} (hj : j < 8) :
    packet.payload[j] = if i + j < message.length then message.getD (i + j) 0
      else if i + j ≤ message.length + 1 then 0 else memory.payload[j] := by
  obtain ⟨payload, he, hget⟩ := LDPPacket.ofMessage_eq memory (min_le_cStr h)
  rw [hp, Option.some.injEq] at he
  subst he
  rw [hget j hj]
  have hd : ((cStr message).drop i).getD j 0 =
      if i + j < message.length then message.getD (i + j) 0 else 0 := by
    simp only [cStr, List.getD_eq_getElem?_getD, List.getElem?_drop]
    by_cases hlt : i + j < message.length
    · rw [List.getElem?_append_left hlt, if_pos hlt]
    · rw [List.getElem?_append_right (by omega), if_neg hlt]
      cases i + j - message.length <;> rfl
  rw [hd]
  by_cases hlt : i + j < message.length
  · simp only [hlt, ↓reduceIte, show j < message.length - i + 1 by omega]
  · simp only [hlt, ↓reduceIte]
    by_cases hle : i + j ≤ message.length + 1
    · rw [if_pos hle]
      by_cases hj' : j < message.length - i + 1
      · rw [if_pos hj']
      · rw [if_neg hj', if_pos (by omega)]
    · rw [if_neg hle, if_neg (by omega), if_neg (by omega)]

/-- A packet before the last has eight bytes of the message. -/
theorem payload_of_le {packet : LDPPacket} (h : i + 8 ≤ message.length) (hp : Carries message i packet) :
    packet.payload.toList = (message.drop i).take 8 := by
  obtain ⟨memory, hp⟩ := hp
  apply List.ext_getElem
  · simp only [Vector.length_toList, List.length_take, List.length_drop]
    omega
  · intro j hj _
    simp only [Vector.length_toList] at hj
    have hget := ofMessage_payload (by omega) hp hj
    rw [if_pos (by omega), List.getD_eq_getElem _ _ (by omega)] at hget
    simpa using hget

/-- The last packet has the end of the message, a NUL, and what the memory held. -/
theorem payload_of_lt {packet : LDPPacket} (h : i ≤ message.length) (hl : message.length < i + 8)
    (hp : Carries message i packet) : ∃ rest, packet.payload.toList = message.drop i ++ 0 :: rest := by
  obtain ⟨memory, hp⟩ := hp
  have htake : packet.payload.toList.take (message.length - i) = message.drop i := by
    apply List.ext_getElem
    · simp only [List.length_take, Vector.length_toList, List.length_drop]
      omega
    · intro j hj _
      simp only [List.length_take, Vector.length_toList] at hj
      have hget := ofMessage_payload h hp (show j < 8 by omega)
      rw [if_pos (by omega), List.getD_eq_getElem _ _ (by omega)] at hget
      simpa using hget
  have hdrop : packet.payload.toList.drop (message.length - i) =
      0 :: packet.payload.toList.drop (message.length - i + 1) := by
    rw [List.drop_eq_getElem_cons (by simp only [Vector.length_toList]; omega), Vector.getElem_toList,
      ofMessage_payload h hp (by omega), if_neg (by omega), if_pos (by omega)]
  refine ⟨packet.payload.toList.drop (message.length - i + 1), ?_⟩
  rw [← hdrop, ← htake, List.take_append_drop]

/-! ## The loop of `send` -/

/-- One round of the loop, where the index does not overflow. -/
theorem send_of_le {memory : Nat → LDPPacket} {packet : LDPPacket} (h : i ≤ message.length)
    (hmax : i + 8 ≤ INT_MAX)
    (hp : LDPPacket.ofMessage (memory i) ((cStr message).drop i) (message.length - i + 1) = some packet) :
    send memory message i = (send memory message (i + 8)).map (packet :: ·) := by
  rw [send, if_pos (by omega), hp]
  simp only [Option.bind_eq_bind, Option.bind_some, hmax, ↓reduceIte]
  cases send memory message (i + 8) <;> rfl

theorem send_of_lt (memory : Nat → LDPPacket) (h : message.length < i) : send memory message i = some [] := by
  rw [send, if_neg (by omega)]

/-- The packets of a message without a NUL that leaves the index in range: they are
all there, and frame the message. By induction on what is left of it. -/
theorem send_frames {i : Nat} (memory : Nat → LDPPacket) (h0 : 0 ∉ message)
    (hmax : message.length + 8 ≤ INT_MAX) (h : i ≤ message.length) :
    ∃ packets, send memory message i = some packets ∧
      packets.length = (message.length - i) / 8 + 1 ∧
      Framing.Frames 0 (message.drop i) (packets.map (·.payload.toList)) := by
  obtain ⟨packet, hp⟩ := exists_carries (memory i) h
  rw [send_of_le h (by omega) hp]
  by_cases hi : i + 8 ≤ message.length
  · obtain ⟨packets, hs, hl, hf⟩ := send_frames memory h0 hmax hi
    refine ⟨packet :: packets, by rw [hs]; rfl, by rw [List.length_cons, hl]; omega, ?_⟩
    have hb : (message.drop i).take 8 ++ message.drop (i + 8) = message.drop i := by
      rw [← List.drop_drop, List.take_append_drop]
    have hb0 : 0 ∉ (message.drop i).take 8 := fun hm => h0 (List.mem_of_mem_drop (List.mem_of_mem_take hm))
    have hcons := Framing.Frames.cons hb0 hf
    rwa [hb, ← payload_of_le hi ⟨_, hp⟩] at hcons
  · obtain ⟨rest, hr⟩ := payload_of_lt h (by omega) ⟨_, hp⟩
    refine ⟨[packet], by rw [send_of_lt memory (by omega)]; rfl, ?_, ?_⟩
    · rw [List.length_singleton]; omega
    · rw [List.map_singleton, hr]
      exact .last rest fun hm => h0 (List.mem_of_mem_drop hm)
termination_by message.length - i

/-- The packets of a sequence of messages: all there, and framing the messages. -/
theorem mapM_send_frames {calls : List ((Nat → LDPPacket) × List UInt8)}
    (h : ∀ c ∈ calls, 0 ∉ c.2 ∧ c.2.length + 8 ≤ INT_MAX) :
    ∃ packets, calls.mapM (fun c => send c.1 c.2 0) = some packets ∧
      packets.map List.length = calls.map (fun c => c.2.length / 8 + 1) ∧
      List.Forall₂ (Framing.Frames 0) (calls.map Prod.snd)
        (packets.map fun ps => ps.map (·.payload.toList)) := by
  induction calls with
  | nil => exact ⟨[], rfl, rfl, .nil⟩
  | cons c calls ih =>
    obtain ⟨⟨h0, hmax⟩, h⟩ := List.forall_mem_cons.mp h
    obtain ⟨ps, hs, hl, hf⟩ := send_frames c.1 h0 hmax (Nat.zero_le _)
    obtain ⟨packets, hm, hls, hfs⟩ := ih h
    refine ⟨ps :: packets, ?_, by simp [hl, hls], .cons hf hfs⟩
    simp [List.mapM_cons, hs, hm]

/-- Any sequence of messages without NULs, of lengths up to `2^31 - 9`, is sent
without undefined behaviour, in `length / 8 + 1` packets each, and can be read back
from the payloads, whatever the memory held. -/
theorem messages_send (calls : List ((Nat → LDPPacket) × List UInt8))
    (h : ∀ c ∈ calls, 0 ∉ c.2 ∧ c.2.length + 8 ≤ INT_MAX) :
    ∃ packets, calls.mapM (fun c => send c.1 c.2 0) = some packets ∧
      packets.map List.length = calls.map (fun c => c.2.length / 8 + 1) ∧
      Framing.messages 0 (packets.flatten.map (·.payload.toList)) = calls.map Prod.snd := by
  obtain ⟨packets, hm, hl, hf⟩ := mapM_send_frames h
  refine ⟨packets, hm, hl, ?_⟩
  rw [List.map_flatten]
  exact Framing.messages_flatten hf

/-- Memory that was used before. -/
def usedMemory : LDPPacket := ⟨7, false, true, true, 1, 2, Vector.replicate 8 88, true⟩

/-- A message of two bytes, one of eight, and the empty one. -/
theorem messages_send_three :
    ∃ packets, ([(fun _ => usedMemory, [104, 105]), (fun _ => usedMemory, [49, 50, 51, 52, 53, 54, 55, 56]),
          (fun _ => usedMemory, [])] : List ((Nat → LDPPacket) × List UInt8)).mapM
        (fun c => send c.1 c.2 0) = some packets ∧
      packets.map List.length = [1, 2, 1] ∧
      Framing.messages 0 (packets.flatten.map (·.payload.toList)) =
        [[104, 105], [49, 50, 51, 52, 53, 54, 55, 56], []] :=
  messages_send [(fun _ => usedMemory, [104, 105]), (fun _ => usedMemory, [49, 50, 51, 52, 53, 54, 55, 56]),
    (fun _ => usedMemory, [])] (by decide)

end Ldp
