import Ldp.Bytes

/-!
# The values that can be serialized

`serialize_uint32_t` and `serialize_char`, which no packet uses, beside those of `Ldp.Bytes`, and
all of them on any value of theirs.
-/

namespace Ldp

variable {n : Nat}

/-- The four bytes of a `uint32_t` in memory. -/
def ByteOrder.store32 : ByteOrder → UInt32 → UInt8 × UInt8 × UInt8 × UInt8
  | .little, v => (v.toUInt8, (v / 256).toUInt8, (v / 65536).toUInt8, (v / 16777216).toUInt8)
  | .big, v => ((v / 16777216).toUInt8, (v / 65536).toUInt8, (v / 256).toUInt8, v.toUInt8)

/-- The `uint32_t` that four bytes in memory are. -/
def ByteOrder.load32 : ByteOrder → UInt8 → UInt8 → UInt8 → UInt8 → UInt32
  | .little, b₀, b₁, b₂, b₃ =>
    b₀.toUInt32 + 256 * b₁.toUInt32 + 65536 * b₂.toUInt32 + 16777216 * b₃.toUInt32
  | .big, b₀, b₁, b₂, b₃ =>
    16777216 * b₀.toUInt32 + 65536 * b₁.toUInt32 + 256 * b₂.toUInt32 + b₃.toUInt32

/-- The four bytes in the opposite order. -/
def reverseBytes (v : UInt32) : UInt32 :=
  16777216 * (v % 256) + 65536 * (v / 256 % 256) + 256 * (v / 65536 % 256) + v / 16777216

def htonl : ByteOrder → UInt32 → UInt32
  | .little, v => reverseBytes v
  | .big, v => v

def ntohl : ByteOrder → UInt32 → UInt32
  | .little, v => reverseBytes v
  | .big, v => v

/-- `serialize_uint32_t`. -/
def serializeUint32 (host : ByteOrder) (buffer : Vector UInt8 n) (data : Nat) (value : UInt32) :
    Option (Vector UInt8 n × Nat) := do
  let bytes := host.store32 (htonl host value)
  let buffer ← storeByte buffer data bytes.1
  let buffer ← storeByte buffer (data + 1) bytes.2.1
  let buffer ← storeByte buffer (data + 2) bytes.2.2.1
  let buffer ← storeByte buffer (data + 3) bytes.2.2.2
  some (buffer, data + 4)

/-- `deserialize_uint32_t`. -/
def deserializeUint32 (host : ByteOrder) (buffer : Vector UInt8 n) (data : Nat) : Option (UInt32 × Nat) := do
  let b₀ ← buffer[data]?
  let b₁ ← buffer[data + 1]?
  let b₂ ← buffer[data + 2]?
  let b₃ ← buffer[data + 3]?
  some (ntohl host (host.load32 b₀ b₁ b₂ b₃), data + 4)

/-- `serialize_char`. -/
def serializeChar (buffer : Vector UInt8 n) (data : Nat) (value : UInt8) : Option (Vector UInt8 n × Nat) := do
  let buffer ← storeByte buffer data value
  some (buffer, data + 1)

/-- `deserialize_char`. -/
def deserializeChar (buffer : Vector UInt8 n) (data : Nat) : Option (UInt8 × Nat) := do
  let value ← buffer[data]?
  some (value, data + 1)

/-- What can be serialized: the types, and with a value. -/
inductive Kind
  | uint32
  | uint16
  | uint8
  | charArray (m : Nat)
  | char
  deriving DecidableEq, Repr

inductive Value
  | uint32 (value : UInt32)
  | uint16 (value : UInt16)
  | uint8 (value : UInt8)
  | charArray {m : Nat} (str : Vector UInt8 m)
  | char (value : UInt8)

/-- The function for a value of its type. -/
def serialize (host : ByteOrder) (buffer : Vector UInt8 n) (data : Nat) :
    Value → Option (Vector UInt8 n × Nat)
  | .uint32 value => serializeUint32 host buffer data value
  | .uint16 value => serializeUint16 host buffer data value
  | .uint8 value => serializeUint8 buffer data value
  | @Value.charArray m str => serializeCharArray buffer data str m
  | .char value => serializeChar buffer data value

/-- The function for a type; an array is read into one that was zero. -/
def deserialize (host : ByteOrder) (buffer : Vector UInt8 n) (data : Nat) : Kind → Option (Value × Nat)
  | .uint32 => (deserializeUint32 host buffer data).map fun r => (.uint32 r.1, r.2)
  | .uint16 => (deserializeUint16 host buffer data).map fun r => (.uint16 r.1, r.2)
  | .uint8 => (deserializeUint8 buffer data).map fun r => (.uint8 r.1, r.2)
  | .charArray m =>
    (deserializeCharArray buffer data (Vector.replicate m 0) m).map fun r => (.charArray r.1, r.2)
  | .char => (deserializeChar buffer data).map fun r => (.char r.1, r.2)

end Ldp
