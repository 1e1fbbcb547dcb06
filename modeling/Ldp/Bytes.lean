import Mathlib.Data.List.Basic

/-!
# Bytes, words and buffers

The memory of a host as `ldp.cpp` uses it: a `char` array of `n` bytes is a
vector, a pointer into it an offset, and an access outside it is undefined
(`none`). A `uint16_t` is stored in the host's byte order, which `htons` and
`ntohs` convert to and from that of the network, so that what `serialize_uint16_t`
writes does not depend on the host (`store_htons`), nor how
`deserialize_uint16_t` reads it (`ntohs_load`).
-/

namespace Ldp

/-- The byte order of a host. -/
inductive ByteOrder
  | little
  | big
  deriving DecidableEq, Repr

/-- The two bytes of a `uint16_t` in memory. -/
def ByteOrder.store : ByteOrder → UInt16 → UInt8 × UInt8
  | .little, v => (v.toUInt8, (v / 256).toUInt8)
  | .big, v => ((v / 256).toUInt8, v.toUInt8)

/-- The `uint16_t` that two bytes in memory are. -/
def ByteOrder.load : ByteOrder → UInt8 → UInt8 → UInt16
  | .little, b₀, b₁ => b₀.toUInt16 + 256 * b₁.toUInt16
  | .big, b₀, b₁ => 256 * b₀.toUInt16 + b₁.toUInt16

/-- The two bytes of a word exchanged. -/
def swapBytes (v : UInt16) : UInt16 := 256 * (v % 256) + v / 256

def htons : ByteOrder → UInt16 → UInt16
  | .little, v => swapBytes v
  | .big, v => v

def ntohs : ByteOrder → UInt16 → UInt16
  | .little, v => swapBytes v
  | .big, v => v

/-- The high and the low byte of a `uint16_t`. -/
def hiByte (v : UInt16) : UInt8 := (v / 256).toUInt8
def loByte (v : UInt16) : UInt8 := v.toUInt8

@[simp] theorem hiByte_toNat (v : UInt16) : (hiByte v).toNat = v.toNat / 256 := by
  have := v.toNat_lt
  simp only [hiByte, UInt16.toNat_toUInt8, UInt16.toNat_div, UInt16.reduceToNat]
  omega

@[simp] theorem loByte_toNat (v : UInt16) : (loByte v).toNat = v.toNat % 256 := by
  simp [loByte]

/-- The `uint16_t` with the given high and low bytes. -/
def ofBytes (hi lo : UInt8) : UInt16 := 256 * hi.toUInt16 + lo.toUInt16

@[simp] theorem ofBytes_toNat (hi lo : UInt8) : (ofBytes hi lo).toNat = 256 * hi.toNat + lo.toNat := by
  have := hi.toNat_lt; have := lo.toNat_lt
  simp only [ofBytes, UInt16.toNat_add, UInt16.toNat_mul, UInt8.toNat_toUInt16, UInt16.reduceToNat]
  omega

@[simp] theorem ofBytes_hiByte_loByte (v : UInt16) : ofBytes (hiByte v) (loByte v) = v := by
  apply UInt16.toNat_inj.mp
  simp only [ofBytes_toNat, hiByte_toNat, loByte_toNat]
  omega

theorem load_toNat (host : ByteOrder) (b₀ b₁ : UInt8) :
    (host.load b₀ b₁).toNat = match host with
      | .little => b₀.toNat + 256 * b₁.toNat
      | .big => 256 * b₀.toNat + b₁.toNat := by
  have := b₀.toNat_lt; have := b₁.toNat_lt
  cases host <;>
  · simp only [ByteOrder.load, UInt16.toNat_add, UInt16.toNat_mul, UInt8.toNat_toUInt16,
      UInt16.reduceToNat]
    omega

theorem load_eq_load {host : ByteOrder} {a b c d : UInt8}
    (h : (host.load a b).toNat = (host.load c d).toNat) : a = c ∧ b = d := by
  have := a.toNat_lt; have := b.toNat_lt; have := c.toNat_lt; have := d.toNat_lt
  rw [load_toNat, load_toNat] at h
  refine ⟨UInt8.toNat_inj.mp ?_, UInt8.toNat_inj.mp ?_⟩ <;> cases host <;> simp only at h <;> omega

theorem load_eq_zero (host : ByteOrder) {a b : UInt8} : (host.load a b).toNat = 0 ↔ a = 0 ∧ b = 0 := by
  rw [← UInt8.toNat_inj, ← UInt8.toNat_inj, load_toNat]
  cases host <;> simp only [UInt8.toNat_zero] <;> omega

theorem load_eq_max (host : ByteOrder) {a b : UInt8} :
    (host.load a b).toNat = 65535 ↔ a = 255 ∧ b = 255 := by
  have := a.toNat_lt; have := b.toNat_lt
  rw [← UInt8.toNat_inj, ← UInt8.toNat_inj, load_toNat]
  cases host <;> simp only [UInt8.reduceToNat] <;> omega

/-- Every word is that of two bytes. -/
theorem exists_load (host : ByteOrder) {w : Nat} (h : w < 65536) : ∃ a b, (host.load a b).toNat = w := by
  cases host with
  | little =>
    refine ⟨UInt8.ofNat (w % 256), UInt8.ofNat (w / 256), ?_⟩
    simp only [load_toNat, UInt8.toNat_ofNat']
    omega
  | big =>
    refine ⟨UInt8.ofNat (w / 256), UInt8.ofNat (w % 256), ?_⟩
    simp only [load_toNat, UInt8.toNat_ofNat']
    omega

theorem swapBytes_toNat (v : UInt16) : (swapBytes v).toNat = 256 * (v.toNat % 256) + v.toNat / 256 := by
  have := v.toNat_lt
  simp only [swapBytes, UInt16.toNat_add, UInt16.toNat_mul, UInt16.toNat_mod, UInt16.toNat_div,
    UInt16.reduceToNat]
  rw [Nat.mod_eq_of_lt (a := 256 * _) (by omega), Nat.mod_eq_of_lt (by omega)]

/-- A word in network order is stored high byte first on every host. -/
theorem store_htons (host : ByteOrder) (v : UInt16) : host.store (htons host v) = (hiByte v, loByte v) := by
  have hv := v.toNat_lt
  have hhi : v.toNat / 256 < 256 := by omega
  have hlo := Nat.mod_lt v.toNat (show 0 < 256 by decide)
  cases host with
  | big => rfl
  | little =>
    refine Prod.ext (UInt8.toNat_inj.mp ?_) (UInt8.toNat_inj.mp ?_) <;>
    · simp only [ByteOrder.store, htons, UInt16.toNat_toUInt8, UInt16.toNat_div, swapBytes_toNat,
        UInt16.reduceToNat, hiByte_toNat, loByte_toNat]
      generalize v.toNat / 256 = hi at *
      generalize v.toNat % 256 = lo at *
      omega

/-- A word in network order is read high byte first on every host. -/
theorem ntohs_load (host : ByteOrder) (b₀ b₁ : UInt8) : ntohs host (host.load b₀ b₁) = ofBytes b₀ b₁ := by
  have := b₀.toNat_lt; have := b₁.toNat_lt
  cases host with
  | big => rfl
  | little =>
    apply UInt16.toNat_inj.mp
    simp only [ntohs, swapBytes_toNat, load_toNat, ofBytes_toNat]
    omega

/-! ## Serialization -/

variable {n m : Nat}

/-- A byte written at `data`. -/
def storeByte (buffer : Vector UInt8 n) (data : Nat) (b : UInt8) : Option (Vector UInt8 n) :=
  if h : data < n then some (buffer.set data b) else none

/-- `serialize_uint8_t`: the buffer written and the advanced pointer. -/
def serializeUint8 (buffer : Vector UInt8 n) (data : Nat) (value : UInt8) :
    Option (Vector UInt8 n × Nat) := do
  let buffer ← storeByte buffer data value
  some (buffer, data + 1)

/-- `serialize_uint16_t`. -/
def serializeUint16 (host : ByteOrder) (buffer : Vector UInt8 n) (data : Nat) (value : UInt16) :
    Option (Vector UInt8 n × Nat) := do
  let bytes := host.store (htons host value)
  let buffer ← storeByte buffer data bytes.1
  let buffer ← storeByte buffer (data + 1) bytes.2
  some (buffer, data + 2)

/-- The greatest `int`. -/
abbrev INT_MAX : Nat := 2147483647

/-- `for (int i = 0; i < count; ++i)`. An overflow of the index is undefined. -/
def forInt {σ : Type _} (count : Nat) (body : σ → Nat → Option σ) (s : σ) : Option σ :=
  (List.range count).foldlM (fun s i => do
    let s ← body s i
    if i + 1 ≤ INT_MAX then some s else none) s

/-- `serialize_char_array`: `buffer[i] = str[i]` for each of the `count` characters. -/
def serializeCharArray (buffer : Vector UInt8 n) (data : Nat) (str : Vector UInt8 m) (count : Nat) :
    Option (Vector UInt8 n × Nat) := do
  let buffer ← forInt count (fun buffer i => do
    let c ← str[i]?
    storeByte buffer (data + i) c) buffer
  some (buffer, data + count)

/-- `deserialize_uint8_t`: the value read and the advanced pointer. -/
def deserializeUint8 (buffer : Vector UInt8 n) (data : Nat) : Option (UInt8 × Nat) := do
  let value ← buffer[data]?
  some (value, data + 1)

/-- `deserialize_uint16_t`. -/
def deserializeUint16 (host : ByteOrder) (buffer : Vector UInt8 n) (data : Nat) :
    Option (UInt16 × Nat) := do
  let b₀ ← buffer[data]?
  let b₁ ← buffer[data + 1]?
  some (ntohs host (host.load b₀ b₁), data + 2)

/-- `deserialize_char_array`: `str[i] = buffer[i]` for each of the `count` characters. -/
def deserializeCharArray (buffer : Vector UInt8 n) (data : Nat) (str : Vector UInt8 m) (count : Nat) :
    Option (Vector UInt8 m × Nat) := do
  let str ← forInt count (fun str i => do
    let c ← buffer[data + i]?
    storeByte str i c) str
  some (str, data + count)

/-- The loop runs all its passes, unless the index overflows. -/
theorem forInt_eq {σ : Type _} (count : Nat) (body : σ → Nat → Option σ) (s : σ) :
    forInt count body s = if count ≤ INT_MAX then (List.range count).foldlM body s else none := by
  induction count with
  | zero => rfl
  | succ k ih =>
    rw [forInt] at ih ⊢
    rw [List.range_succ, List.foldlM_append, List.foldlM_append, ih]
    by_cases hk : k + 1 ≤ INT_MAX
    · simp only [hk, Nat.le_of_succ_le hk, ↓reduceIte, List.foldlM_cons, List.foldlM_nil, Option.bind_eq_bind,
        Option.bind_fun_some, Option.pure_def]
    · split <;> simp only [hk, ↓reduceIte, List.foldlM_cons, List.foldlM_nil, Option.bind_eq_bind,
        Option.bind_none, Option.bind_fun_none]

theorem storeByte_of_lt {buffer : Vector UInt8 n} {data : Nat} {b : UInt8} (h : data < n) :
    storeByte buffer data b = some (buffer.set data b) := by
  rw [storeByte, dif_pos h]

/-- A loop that stores `f i` at `data + i`, for `i` up to `count`. -/
theorem foldlM_storeByte (buffer : Vector UInt8 n) (data : Nat) {count : Nat} {f : Nat → Option UInt8}
    {g : Nat → UInt8} (hf : ∀ i < count, f i = some (g i)) (h : data + count ≤ n) :
    ∃ b, (List.range count).foldlM (fun buffer i => do
        let c ← f i
        storeByte buffer (data + i) c) buffer = some b ∧
      ∀ i (hi : i < n), b[i] = if data ≤ i ∧ i < data + count then g (i - data) else buffer[i] := by
  induction count with
  | zero => exact ⟨buffer, rfl, fun i hi => (if_neg (by omega)).symm⟩
  | succ k ih =>
    obtain ⟨b, hb, hget⟩ := ih (fun i hi => hf i (by omega)) (by omega)
    refine ⟨b.set (data + k) (g k) (by omega), ?_, fun i hi => ?_⟩
    · rw [List.range_succ, List.foldlM_append, hb]
      simp [hf k (by omega), storeByte_of_lt (show data + k < n by omega)]
    · rw [Vector.getElem_set]
      split
      · rename_i he
        rw [if_pos (by omega)]; congr 1; omega
      · rename_i he
        rw [hget i hi]
        refine if_congr (by omega) rfl rfl

theorem serializeUint8_eq {buffer : Vector UInt8 n} {data : Nat} {value : UInt8} (h : data < n) :
    serializeUint8 buffer data value = some (buffer.set data value, data + 1) := by
  simp [serializeUint8, storeByte_of_lt h]

theorem serializeUint16_eq {host : ByteOrder} {buffer : Vector UInt8 n} {data : Nat} {value : UInt16}
    (h : data + 1 < n) :
    serializeUint16 host buffer data value =
      some ((buffer.set data (hiByte value)).set (data + 1) (loByte value), data + 2) := by
  simp [serializeUint16, store_htons, storeByte_of_lt (show data < n by omega), storeByte_of_lt h]

theorem serializeCharArray_eq (buffer : Vector UInt8 n) {data : Nat} (str : Vector UInt8 m) {count : Nat}
    (h : data + count ≤ n) (hm : count ≤ m) (hmax : count ≤ INT_MAX) :
    ∃ b, serializeCharArray buffer data str count = some (b, data + count) ∧
      ∀ i (hi : i < n), b[i] =
        if h : data ≤ i ∧ i < data + count then str[i - data] else buffer[i] := by
  obtain ⟨b, hb, hget⟩ := foldlM_storeByte buffer data (f := fun i => str[i]?)
    (g := fun i => str[i]?.getD 0) (fun i hi => by simp [show i < m by omega]) h
  refine ⟨b, by rw [serializeCharArray, forInt_eq, if_pos hmax, hb]; rfl, fun i hi => ?_⟩
  rw [hget i hi]
  split
  · rw [Vector.getElem?_eq_getElem (by omega), Option.getD_some]
  · rfl

theorem deserializeUint8_eq {buffer : Vector UInt8 n} {data : Nat} (h : data < n) :
    deserializeUint8 buffer data = some (buffer[data], data + 1) := by
  simp [deserializeUint8, h]

theorem deserializeUint16_eq {host : ByteOrder} {buffer : Vector UInt8 n} {data : Nat}
    (h : data + 1 < n) :
    deserializeUint16 host buffer data = some (ofBytes buffer[data] buffer[data + 1], data + 2) := by
  simp [deserializeUint16, h, show data < n by omega, ntohs_load]

/-- A whole array read: its previous content does not matter. -/
theorem deserializeCharArray_eq {buffer : Vector UInt8 n} {data : Nat} {str : Vector UInt8 m}
    (h : data + m ≤ n) (hmax : m ≤ INT_MAX) :
    deserializeCharArray buffer data str m =
      some (Vector.ofFn fun i => buffer[data + i.val], data + m) := by
  obtain ⟨b, hb, hget⟩ := foldlM_storeByte str 0
    (f := fun i => buffer[data + i]?) (g := fun i => buffer[data + i]?.getD 0)
    (fun i hi => by simp [show data + i < n by omega]) (show 0 + m ≤ m by omega)
  have e : b = Vector.ofFn fun i => buffer[data + i.val] := by
    apply Vector.ext; intro i hi
    rw [hget i hi, if_pos (by omega), Vector.getElem_ofFn, Nat.sub_zero,
      Vector.getElem?_eq_getElem (by omega), Option.getD_some]
  simp only [Nat.zero_add] at hb
  rw [deserializeCharArray, forInt_eq, if_pos hmax, hb, e]
  rfl

end Ldp
