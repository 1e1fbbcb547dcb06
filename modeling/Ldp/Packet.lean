import Ldp.Bytes

/-!
# LDP packets

`LDPPacket` and its functions, as in `ldp.cpp`: the constructor that takes (up
to) eight bytes of a message (`ofMessage`), `calculateChecksum`, `encode` and
`decode`; and the packets that `LDP::send` makes of a message (`send`). Memory that
the code leaves unwritten is an argument (`memory`), and reading past the end of
the memory that a pointer points to is undefined (`none`).
-/

namespace Ldp

/-- The size of a packet on the wire. -/
abbrev LDP_PACKET_SIZE : Nat := 15

/-- A packet. `checksum` is calculated when it is encoded and read when it is
decoded; `isCorrupted` is not sent. -/
structure LDPPacket where
  checksum : UInt16
  isAck : Bool
  isSeq : Bool
  isTheLastPacketOfTheMessage : Bool
  seqNumber : UInt16
  ackNumber : UInt16
  payload : Vector UInt8 8
  isCorrupted : Bool
  deriving DecidableEq, Repr

namespace LDPPacket

/-! ## The checksum -/

/-- `while (n > 1)`: the sum of the words at `dataPtr16`, in the host's byte
order, and the number of bytes left. -/
def sumWords (host : ByteOrder) : List UInt8 → UInt32 → UInt32 × Nat
  | b₀ :: b₁ :: dataPtr, sum => sumWords host dataPtr (sum + (host.load b₀ b₁).toUInt32)
  | dataPtr, sum => (sum, dataPtr.length)

/-- `while (sum >> 16)`, for at most the given number of passes; `sum` itself is
enough of them (`foldCarry_toNat`). -/
def foldCarry : Nat → UInt32 → UInt32
  | 0, sum => sum
  | passes + 1, sum =>
    if sum >>> 16 = 0 then sum else foldCarry passes ((sum &&& (0xFFFF : UInt32)) + (sum >>> 16))

/-- `calculateChecksum` of the `n` bytes at `data`, given as the list of them. -/
def calculateChecksum (host : ByteOrder) (data : List UInt8) : UInt16 :=
  let (sum, n) := sumWords host data 0
  -- `n` is what the loop has left of it, while `data` has not moved: the byte is the first one.
  let sum := if 0 < n then sum + (data.getD (n - 1) 0).toUInt32 else sum
  (~~~ foldCarry sum.toNat sum).toUInt16

/-! ## Encoding and decoding -/

/-- The flags, packed into a byte. -/
def flags (p : LDPPacket) : UInt8 :=
  (0 : UInt8) ||| p.isAck.toUInt8 ||| p.isSeq.toUInt8 <<< 1 ||| p.isTheLastPacketOfTheMessage.toUInt8 <<< 2

/-- The bytes of a packet that `calculateChecksum` is called on, from a whole one. -/
def checksummed (buffer : Vector UInt8 LDP_PACKET_SIZE) : List UInt8 :=
  (buffer.toList.drop 2).take (LDP_PACKET_SIZE - 2)

/-- What `encode` leaves: the packet, with its checksum, the buffer, and the
number of bytes written. -/
structure Encoded where
  packet : LDPPacket
  buffer : Vector UInt8 LDP_PACKET_SIZE
  size : Nat

/-- `LDPPacket::encode`, to a buffer of `LDP_PACKET_SIZE` bytes. -/
def encode (host : ByteOrder) (p : LDPPacket) (buffer : Vector UInt8 LDP_PACKET_SIZE) :
    Option Encoded := do
  -- the first two bytes are the checksum, serialized last
  let (buffer, data) ← serializeUint8 buffer 2 p.flags
  let (buffer, data) ← serializeUint16 host buffer data p.seqNumber
  let (buffer, data) ← serializeUint16 host buffer data p.ackNumber
  let (buffer, _) ← serializeCharArray buffer data p.payload 8
  let checksum := calculateChecksum host (checksummed buffer)
  let (buffer, _) ← serializeUint16 host buffer 0 checksum
  some ⟨{ p with checksum }, buffer, LDP_PACKET_SIZE⟩

/-- `LDPPacket::decode`. It does not use `n`, the size it is given. The packet it
reads into is uninitialised, but every member is assigned: the payload in full
(`deserializeCharArray_eq`). -/
def decode (host : ByteOrder) (data : Vector UInt8 LDP_PACKET_SIZE) (_n : Nat) : Option LDPPacket := do
  let (checksum, p) ← deserializeUint16 host data 0
  let (flags, p) ← deserializeUint8 data p
  let (seqNumber, p) ← deserializeUint16 host data p
  let (ackNumber, p) ← deserializeUint16 host data p
  let (payload, _) ← deserializeCharArray data p (Vector.replicate 8 0) 8
  some {
    checksum
    isAck := flags &&& 1 ≠ 0
    isSeq := (flags >>> 1) &&& 1 ≠ 0
    isTheLastPacketOfTheMessage := (flags >>> 2) &&& 1 ≠ 0
    seqNumber
    ackNumber
    payload
    isCorrupted := checksum ≠ calculateChecksum host (checksummed data) }

/-! ## The constructor -/

/-- `for (i = 0; i < 8 && i < n; ++i) payload[i] = message[i]`, with `k` of the
eight bytes to go: the payload, and `i` at the end. -/
def copyPayload (message : List UInt8) (n : Nat) : Nat → Vector UInt8 8 → Option (Vector UInt8 8 × Nat)
  | 0, payload => some (payload, 8)
  | k + 1, payload =>
    let i := 7 - k
    if i < n then do
      let c ← message[i]?
      copyPayload message n k (payload.set i c (by omega))
    else some (payload, i)

/-- `LDPPacket::LDPPacket(const char *message, size_t n)`, in memory that holds
`memory`; `message` is the memory from the pointer on. -/
def ofMessage (memory : LDPPacket) (message : List UInt8) (n : Nat) : Option LDPPacket := do
  let (payload, i) ← copyPayload message n 8 memory.payload
  let payload := if h : i < 8 then payload.set i 0 else payload
  some { memory with
    payload
    isCorrupted := false
    isAck := true
    isTheLastPacketOfTheMessage := false
    isSeq := true
    seqNumber := 123
    ackNumber := 789 }

end LDPPacket

/-! ## The packets of a message -/

/-- The memory `c_str()` points to. -/
def cStr (message : List UInt8) : List UInt8 := message ++ [0]

/-- The packets that the loop of `LDP::send` pushes from `i` on; `memory i` is what
the memory holds in which the one of index `i` is constructed. An overflow of the
index is undefined. -/
def send (memory : Nat → LDPPacket) (message : List UInt8) (i : Nat) : Option (List LDPPacket) :=
  if i < message.length + 1 then do
    let packet ← LDPPacket.ofMessage (memory i) ((cStr message).drop i) (message.length - i + 1)
    if i + 8 ≤ INT_MAX then do
      let packets ← send memory message (i + 8)
      some (packet :: packets)
    else none
  else some []
termination_by message.length + 1 - i

end Ldp
