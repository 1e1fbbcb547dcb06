import Ldp.Framework.Layout
import Ldp.Proof.Codec
import Ldp.Serialization

/-!
# Serialized values

On every host, the functions that serialize and deserialize implement one layout, in which words
are high byte first (`implemented`). So any values, serialized one after the other, are read
again on any host, and an access past the end of the buffer, or an array so long that its index
overflows, is the only thing that can go wrong (`serialize_round_trip`). A packet is laid out so
(`LDPPacket.encode_eq_writeAll`, `LDPPacket.decode_readAll`).
-/

namespace Ldp

open Framework

variable {n m : Nat} {host : ByteOrder}

/-! ## Words of 32 bits -/

/-- The bytes of a `uint32_t`, the highest first. -/
def bytes32 (v : UInt32) : UInt8 × UInt8 × UInt8 × UInt8 := ByteOrder.big.store32 v

/-- The `uint32_t` with the given bytes, the highest first. -/
def ofBytes32 (b₀ b₁ b₂ b₃ : UInt8) : UInt32 := ByteOrder.big.load32 b₀ b₁ b₂ b₃

/-- The bytes of a number, the lowest first. -/
theorem bytes_of_eq {w : Nat} {a b c d : UInt8}
    (h : w = a.toNat + 256 * b.toNat + 65536 * c.toNat + 16777216 * d.toNat) :
    w % 256 = a.toNat ∧ w / 256 % 256 = b.toNat ∧ w / 65536 % 256 = c.toNat ∧ w / 16777216 = d.toNat := by
  have ha := a.toNat_lt; have hb := b.toNat_lt; have hc := c.toNat_lt
  omega

theorem load32_little (b₀ b₁ b₂ b₃ : UInt8) : (ByteOrder.little.load32 b₀ b₁ b₂ b₃).toNat =
    b₀.toNat + 256 * b₁.toNat + 65536 * b₂.toNat + 16777216 * b₃.toNat := by
  have h0 := b₀.toNat_lt; have h1 := b₁.toNat_lt; have h2 := b₂.toNat_lt; have h3 := b₃.toNat_lt
  simp only [ByteOrder.load32, UInt32.toNat_add, UInt32.toNat_mul, UInt8.toNat_toUInt32, UInt32.reduceToNat]
  omega

theorem ofBytes32_toNat (b₀ b₁ b₂ b₃ : UInt8) : (ofBytes32 b₀ b₁ b₂ b₃).toNat =
    b₃.toNat + 256 * b₂.toNat + 65536 * b₁.toNat + 16777216 * b₀.toNat := by
  have h0 := b₀.toNat_lt; have h1 := b₁.toNat_lt; have h2 := b₂.toNat_lt; have h3 := b₃.toNat_lt
  simp only [ofBytes32, ByteOrder.load32, UInt32.toNat_add, UInt32.toNat_mul, UInt8.toNat_toUInt32,
    UInt32.reduceToNat]
  omega

theorem ofBytes32_bytes32 (v : UInt32) :
    ofBytes32 (bytes32 v).1 (bytes32 v).2.1 (bytes32 v).2.2.1 (bytes32 v).2.2.2 = v := by
  have hv := v.toNat_lt
  apply UInt32.toNat_inj.mp
  simp only [ofBytes32_toNat, bytes32, ByteOrder.store32, UInt32.toNat_toUInt8, UInt32.toNat_div,
    UInt32.reduceToNat]
  omega

theorem reverseBytes_ofBytes32 (b₀ b₁ b₂ b₃ : UInt8) :
    reverseBytes (ofBytes32 b₀ b₁ b₂ b₃) = ofBytes32 b₃ b₂ b₁ b₀ := by
  have h0 := b₀.toNat_lt; have h1 := b₁.toNat_lt; have h2 := b₂.toNat_lt; have h3 := b₃.toNat_lt
  obtain ⟨d0, d1, d2, d3⟩ := bytes_of_eq (ofBytes32_toNat b₀ b₁ b₂ b₃)
  apply UInt32.toNat_inj.mp
  rw [ofBytes32_toNat b₃]
  simp only [reverseBytes, UInt32.toNat_add, UInt32.toNat_mul, UInt32.toNat_mod, UInt32.toNat_div,
    UInt32.reduceToNat, d0, d1, d2, d3]
  omega

theorem load32_little_eq (b₀ b₁ b₂ b₃ : UInt8) :
    ByteOrder.little.load32 b₀ b₁ b₂ b₃ = ofBytes32 b₃ b₂ b₁ b₀ :=
  UInt32.toNat_inj.mp ((load32_little b₀ b₁ b₂ b₃).trans (ofBytes32_toNat b₃ b₂ b₁ b₀).symm)

theorem store32_little (b₀ b₁ b₂ b₃ : UInt8) :
    ByteOrder.little.store32 (ofBytes32 b₃ b₂ b₁ b₀) = (b₀, b₁, b₂, b₃) := by
  have h3 := b₃.toNat_lt
  obtain ⟨d0, d1, d2, d3⟩ := bytes_of_eq (ofBytes32_toNat b₃ b₂ b₁ b₀)
  refine Prod.ext ?_ (Prod.ext ?_ (Prod.ext ?_ ?_)) <;> apply UInt8.toNat_inj.mp <;>
    simp only [ByteOrder.store32, UInt32.toNat_toUInt8, UInt32.toNat_div, UInt32.reduceToNat, d0, d1, d2, d3,
      Nat.mod_eq_of_lt h3]

/-- A `uint32_t` in network order is stored high byte first on every host. -/
theorem store32_htonl (host : ByteOrder) (v : UInt32) : host.store32 (htonl host v) = bytes32 v := by
  cases host with
  | big => rfl
  | little =>
    conv_lhs => rw [← ofBytes32_bytes32 v]
    rw [htonl, reverseBytes_ofBytes32, store32_little]

/-- And read so. -/
theorem ntohl_load32 (host : ByteOrder) (b₀ b₁ b₂ b₃ : UInt8) :
    ntohl host (host.load32 b₀ b₁ b₂ b₃) = ofBytes32 b₀ b₁ b₂ b₃ := by
  cases host with
  | big => rfl
  | little =>
    rw [ntohl, load32_little_eq, reverseBytes_ofBytes32]

/-! ## The layout -/

namespace Value

def kind : Value → Kind
  | .uint32 _ => .uint32
  | .uint16 _ => .uint16
  | .uint8 _ => .uint8
  | @Value.charArray m _ => .charArray m
  | .char _ => .char

/-- Words are high byte first. -/
def cells : Value → List UInt8
  | .uint32 value => [(bytes32 value).1, (bytes32 value).2.1, (bytes32 value).2.2.1, (bytes32 value).2.2.2]
  | .uint16 value => [hiByte value, loByte value]
  | .uint8 value | .char value => [value]
  | .charArray str => str.toList

end Value

namespace Kind

/-- The number of bytes. -/
def size : Kind → Nat
  | .uint32 => 4
  | .uint16 => 2
  | .uint8 | .char => 1
  | .charArray m => m

/-- The index of an array does not overflow. -/
def Indexed : Kind → Prop
  | .charArray m => m ≤ INT_MAX
  | .uint32 | .uint16 | .uint8 | .char => True

/-- The value that so many bytes are. -/
def value : Kind → List UInt8 → Value
  | .uint32, l => .uint32 (ofBytes32 (l.getD 0 0) (l.getD 1 0) (l.getD 2 0) (l.getD 3 0))
  | .uint16, l => .uint16 (ofBytes (l.getD 0 0) (l.getD 1 0))
  | .uint8, l => .uint8 (l.getD 0 0)
  | .charArray m, l => .charArray (Vector.ofFn fun i : Fin m => l.getD i.val 0)
  | .char, l => .char (l.getD 0 0)

end Kind

theorem ofFn_toList (str : Vector UInt8 m) :
    (Vector.ofFn fun i : Fin m => str.toList.getD i.val 0) = str := by
  apply Vector.ext; intro i hi
  simp

/-- The layout of the values, on every host. -/
def layout : Layout Kind Value UInt8 where
  kind := Value.kind
  size := Kind.size
  cells := Value.cells
  value := Kind.value
  length_cells a := by cases a <;> simp [Value.cells, Value.kind, Kind.size]
  value_cells a := by
    cases a with
    | uint32 v => exact congrArg Value.uint32 (ofBytes32_bytes32 v)
    | uint16 v => exact congrArg Value.uint16 (ofBytes_hiByte_loByte v)
    | uint8 v => rfl
    | charArray str => exact congrArg Value.charArray (ofFn_toList str)
    | char v => rfl

/-! ## The functions implement it -/

/-- The loop of `serialize_char_array` stores the characters. -/
theorem serializeCharArray_loop (buffer : Vector UInt8 n) (data : Nat) (str : Vector UInt8 m) {count : Nat}
    (h : count ≤ m) :
    (List.range count).foldlM (fun buffer i => do
      let c ← str[i]?
      storeByte buffer (data + i) c) buffer = store buffer data (str.toList.take count) := by
  induction count with
  | zero => rfl
  | succ k ih =>
    have hlen : (str.toList.take k).length = k := by simp; omega
    rw [List.range_succ, List.foldlM_append, ih (by omega), List.take_add_one, store_append, hlen]
    simp [show k < m by omega, store, storeByte, put]

theorem serializeCharArray_store (buffer : Vector UInt8 n) (data : Nat) (str : Vector UInt8 m)
    (hmax : m ≤ INT_MAX) :
    serializeCharArray buffer data str m = (store buffer data str.toList).map (·, data + m) := by
  rw [serializeCharArray, forInt_eq, if_pos hmax, serializeCharArray_loop buffer data str (Nat.le_refl m),
    List.take_of_length_le (by simp)]
  cases store buffer data str.toList <;> rfl

/-- The loop of `deserialize_char_array` fetches them, and stores them into the array. -/
theorem deserializeCharArray_loop (buffer : Vector UInt8 n) (data : Nat) (str : Vector UInt8 m)
    (count : Nat) :
    (List.range count).foldlM (fun str i => do
      let c ← buffer[data + i]?
      storeByte str i c) str = (fetch buffer data count).bind (store str 0) := by
  induction count with
  | zero => rfl
  | succ k ih =>
    rw [List.range_succ, List.foldlM_append, ih, fetch_append]
    cases hf : fetch buffer data k with
    | none => rfl
    | some l =>
      have hlen := length_fetch hf
      simp only [Option.bind_some, fetch, List.foldlM_cons, List.foldlM_nil, Option.bind_eq_bind]
      cases buffer[data + k]? with
      | none => simp
      | some c =>
        simp only [Option.bind_some, Option.map_some, store_append, Nat.zero_add, hlen, store]
        rfl

theorem deserializeCharArray_fetch (buffer : Vector UInt8 n) (data : Nat) (str : Vector UInt8 m)
    (hmax : m ≤ INT_MAX) :
    deserializeCharArray buffer data str m =
      (fetch buffer data m).map fun l => (Vector.ofFn fun i : Fin m => l.getD i.val 0, data + m) := by
  rw [deserializeCharArray, forInt_eq, if_pos hmax, deserializeCharArray_loop]
  cases hf : fetch buffer data m with
  | none => rfl
  | some l =>
    have hlen := length_fetch hf
    obtain ⟨b, hb, hget⟩ := @store_of_le _ _ str 0 l (by omega)
    have hall : b = Vector.ofFn fun i : Fin m => l.getD i.val 0 := by
      apply Vector.ext; intro i hi
      rw [hget i hi, dif_pos (by omega), Vector.getElem_ofFn, List.getD_eq_getElem?_getD,
        List.getElem?_eq_getElem (by omega), Option.getD_some]
      simp only [Nat.sub_zero]
    simp only [Option.bind_some, hb, Option.map_some, hall]
    rfl

/-- The index overflows in a longer array. -/
theorem serializeCharArray_overflow (buffer : Vector UInt8 n) (data : Nat) (str : Vector UInt8 m)
    (h : INT_MAX < m) : serializeCharArray buffer data str m = none := by
  rw [serializeCharArray, forInt_eq, if_neg (Nat.not_le_of_lt h)]
  rfl

theorem storeByte_eq_put (buffer : Vector UInt8 n) (data : Nat) (b : UInt8) :
    storeByte buffer data b = put buffer data b := rfl

/-- On every host, the functions implement the layout. -/
theorem implemented (host : ByteOrder) (n : Nat) :
    layout.Implemented n Kind.Indexed (serialize host) (deserialize host) where
  write_eq buffer data a hok := by
    cases a with
    | charArray str => exact serializeCharArray_store buffer data str hok
    | _ =>
      simp only [serialize, serializeUint32, store32_htonl, serializeUint16, store_htons, serializeUint8,
        serializeChar, storeByte_eq_put, layout, Value.cells, Value.kind, Kind.size, store, Option.map_eq_bind,
        Option.bind_assoc, Option.bind_eq_bind, Option.bind_some, Function.comp_apply, Nat.add_assoc,
        Nat.reduceAdd]
  write_eq_none buffer data a hok := by
    cases a with
    | charArray str => exact serializeCharArray_overflow buffer data str (Nat.lt_of_not_le hok)
    | uint32 value | uint16 value | uint8 value | char value => exact absurd trivial hok
  read_eq buffer data k hok := by
    cases k with
    | charArray m =>
      rw [deserialize, deserializeCharArray_fetch _ _ _ hok, Option.map_map]
      rfl
    | _ =>
      simp only [deserialize, deserializeUint32, ntohl_load32, deserializeUint16, ntohs_load,
        deserializeUint8, deserializeChar, layout, Kind.value, Kind.size, fetch, Option.map_eq_bind,
        Option.bind_assoc, Option.bind_eq_bind, Option.bind_some, Function.comp_apply, Nat.add_assoc,
        Nat.reduceAdd, List.getD_cons_zero, List.getD_cons_succ]

/-! ## Values one after the other -/

/-- The number of bytes that the values take. -/
def totalSize (values : List Value) : Nat := (values.map fun a => a.kind.size).sum

theorem length_allCells_layout (values : List Value) : (layout.allCells values).length = totalSize values :=
  layout.length_allCells values

theorem exists_not_indexed (values : List Value) : (∃ a ∈ values, ¬ (layout.kind a).Indexed) ↔
    ∃ m, ∃ str : Vector UInt8 m, .charArray str ∈ values ∧ INT_MAX < m := by
  constructor
  · rintro ⟨a, ha, hk⟩
    cases a with
    | charArray str => exact ⟨_, str, ha, Nat.lt_of_not_le hk⟩
    | uint32 value | uint16 value | uint8 value | char value => exact absurd trivial hk
  · exact fun ⟨m, str, ha, hm⟩ => ⟨_, ha, Nat.not_le_of_lt hm⟩

/-- Values of any types serialized one after the other, from any pointer into a buffer of any
size. The only things that can go wrong are an array longer than `INT_MAX` and that they do not
fit. If neither does, the pointer is advanced by their sizes, nothing else in the buffer changes,
a host of any byte order writes the same bytes, and one of any byte order reads the values
again. -/
theorem serialize_round_trip (host : ByteOrder) (buffer : Vector UInt8 n) (data : Nat) (values : List Value) :
    (Layout.writeAll (serialize host) buffer data values = none ↔
        (∃ m, ∃ str : Vector UInt8 m, .charArray str ∈ values ∧ INT_MAX < m) ∨
          0 < totalSize values ∧ n < data + totalSize values) ∧
      ∀ b p, Layout.writeAll (serialize host) buffer data values = some (b, p) →
        p = data + totalSize values ∧ (∀ i (hi : i < n), i < data ∨ p ≤ i → b[i] = buffer[i]) ∧
          ∀ host', Layout.writeAll (serialize host') buffer data values = some (b, p) ∧
            Layout.readAll (deserialize host') b data (values.map Value.kind) = some (values, p) := by
  rw [← length_allCells_layout, ← exists_not_indexed]
  refine ⟨Layout.writeAll_eq_none (implemented host n), fun b p hw => ?_⟩
  obtain ⟨hp, hframe⟩ := Layout.writeAll_frame (implemented host n) hw
  refine ⟨hp, hframe, fun host' => ?_⟩
  have hok := Layout.ok_of_writeAll (implemented host n) hw
  have hw' : Layout.writeAll (serialize host') buffer data values = some (b, p) := by
    rw [Layout.writeAll_eq (implemented host' n) hok, ← Layout.writeAll_eq (implemented host n) hok, hw]
  exact ⟨hw', Layout.readAll_writeAll (implemented host' n) hw'⟩

/-- A word, a string and a byte, from the second byte of 8. -/
theorem serialize_round_trip_seven :
    ∃ b, Layout.writeAll (serialize .little) (Vector.replicate 8 255) 1
        [.uint32 3000000000, .charArray #v[104, 105], .char 33] = some (b, 8) ∧
      b = #v[255, 178, 208, 94, 0, 104, 105, 33] ∧
      Layout.readAll (deserialize .big) b 1 [.uint32, .charArray 2, .char] =
        some ([.uint32 3000000000, .charArray #v[104, 105], .char 33], 8) :=
  ⟨_, rfl, by decide, (((serialize_round_trip .little (Vector.replicate 8 255) 1
    [.uint32 3000000000, .charArray #v[104, 105], .char 33]).2 _ _ rfl).2.2 .big).2⟩

/-! ## Packets -/

/-- What is serialized of a packet after its checksum. -/
def LDPPacket.values (p : LDPPacket) : List Value :=
  [.uint8 p.flags, .uint16 p.seqNumber, .uint16 p.ackNumber, .charArray p.payload]

/-- `encode` writes the values, and then the checksum before them. -/
theorem LDPPacket.encode_eq_writeAll (host : ByteOrder) (p : LDPPacket)
    (buffer : Vector UInt8 LDP_PACKET_SIZE) :
    p.encode host buffer = (Layout.writeAll (serialize host) buffer 2 p.values).bind fun r =>
      (Layout.writeAll (serialize host) r.1 0
        [.uint16 (calculateChecksum host (checksummed r.1))]).map fun r' =>
        ⟨{ p with checksum := calculateChecksum host (checksummed r.1) }, r'.1, LDP_PACKET_SIZE⟩ := by
  simp only [encode, values, Layout.writeAll, serialize, Option.bind_eq_bind, Option.bind_assoc,
    Option.bind_some, Option.map_eq_bind, Function.comp_apply]

/-- `decode` reads them all, and takes the flags apart. -/
theorem LDPPacket.decode_readAll (host : ByteOrder) (d : Vector UInt8 LDP_PACKET_SIZE) (n : Nat) :
    ∃ q, decode host d n = some q ∧
      Layout.readAll (deserialize host) d 0 [.uint16, .uint8, .uint16, .uint16, .charArray 8] =
        some ([.uint16 q.checksum, .uint8 d[2], .uint16 q.seqNumber, .uint16 q.ackNumber,
          .charArray q.payload], LDP_PACKET_SIZE) := by
  simp only [decode, Layout.readAll, deserialize,
    deserializeUint16_eq (show 0 + 1 < LDP_PACKET_SIZE by decide),
    deserializeUint8_eq (show 2 < LDP_PACKET_SIZE by decide),
    deserializeUint16_eq (show 3 + 1 < LDP_PACKET_SIZE by decide),
    deserializeUint16_eq (show 5 + 1 < LDP_PACKET_SIZE by decide),
    deserializeCharArray_eq (show 7 + 8 ≤ LDP_PACKET_SIZE by decide) (show 8 ≤ INT_MAX by decide),
    Option.bind_eq_bind, Option.bind_some, Option.map_some, Nat.reduceAdd]
  exact ⟨_, rfl, rfl⟩

end Ldp
