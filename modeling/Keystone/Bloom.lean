/-
  `src/bloom.cpp`: the bloom filter stored in every table.

  * `mayContain_addAll`: after any list of keys has been added, the filter answers yes for
    each of them (no false negatives).
  * `load_serialize`: a filter built by the constructor is read back from its serialized form,
    whatever bytes follow it.
-/
import Keystone.Coding

namespace Keystone

/-- What a reader can end with instead of a result: a `std::runtime_error`, or a read outside
    the buffer it reads from, which C++ leaves undefined. -/
inductive Fault where
  | thrown (what : String)
  | outOfBounds
  deriving DecidableEq, Repr

/-- `Bloom`: `bits_`, `m_bits_`, `k_`. -/
structure Bloom where
  bits : Bytes
  mBits : UInt64
  k : Int32
  deriving DecidableEq, Repr

namespace Bloom

/-- `m_bits_` of the constructor: `key_count * bits_per_key` rounded up to a byte multiple, at
    least 8, in 64-bit arithmetic. -/
def sizeBits (keyCount bitsPerKey : Nat) : UInt64 :=
  let keyCount := if keyCount = 0 then 1 else keyCount
  let raw := UInt64.ofNat keyCount * UInt64.ofNat bitsPerKey
  let m := (raw + 7) / 8 * 8
  if m < 8 then 8 else m

/-- `k_` of the constructor: `lround(bits_per_key * 0.6931)` clamped to `1..30`. No tie is
    near: below the clamp the product is at least `0.0001` away from a half. -/
def hashCount (bitsPerKey : Nat) : Nat :=
  max 1 (min 30 ((bitsPerKey * 6931 + 5000) / 10000))

/-- `Bloom::Bloom(size_t key_count, int bits_per_key = 10)`. -/
def new (keyCount : Nat) (bitsPerKey : Nat) : Bloom :=
  let m := sizeBits keyCount bitsPerKey
  ⟨List.replicate (m / 8).toNat 0, m, Int32.ofNat (hashCount bitsPerKey)⟩

/-- One byte of FNV-1a. -/
def fnvByte (h : UInt64) (b : UInt8) : UInt64 := (h ^^^ b.toUInt64) * 0x00000100000001B3

/-- `Bloom::hash`: FNV-1a, 64 bits. -/
def fnv (key : Bytes) : UInt64 := key.foldl fnvByte 0xcbf29ce484222325

/-- The low half `h1`. -/
def hash1 (key : Bytes) : UInt32 := (fnv key).toUInt32

/-- The high half `h2`. -/
def hash2 (key : Bytes) : UInt32 := (fnv key >>> 32).toUInt32

/-- The bit position of probe `i`: `(h1 + i * h2) % m_bits`. -/
def probe (m : UInt64) (key : Bytes) (i : Nat) : UInt64 :=
  ((hash1 key).toUInt64 + UInt64.ofNat i * (hash2 key).toUInt64) % m

/-- `1u << (idx % 8)` as a byte. -/
def bitMask (idx : UInt64) : UInt8 := 1 <<< (idx % 8).toUInt8

/-- `bits_[idx / 8] |= 1 << (idx % 8)`. -/
def setBit (bits : Bytes) (idx : UInt64) : Bytes :=
  bits.modify (idx / 8).toNat (· ||| bitMask idx)

/-- `bits_[idx / 8] & (1 << (idx % 8))`. -/
def testBit (bits : Bytes) (idx : UInt64) : Bool :=
  bits.getD (idx / 8).toNat 0 &&& bitMask idx ≠ 0

/-- The probes of a key: `k_` of them; a negative `k_` makes none. -/
def probes (m : UInt64) (k : Int32) (key : Bytes) : List UInt64 :=
  (List.range k.toInt.toNat).map (probe m key)

/-- `Bloom::add`. -/
def add (b : Bloom) (key : Bytes) : Bloom :=
  { b with bits := (probes b.mBits b.k key).foldl setBit b.bits }

/-- `Bloom::may_contain`. -/
def mayContain (b : Bloom) (key : Bytes) : Bool :=
  (probes b.mBits b.k key).all (testBit b.bits)

/-- `Bloom::serialize`. -/
def serialize (b : Bloom) : Bytes :=
  putU32Le b.k.toUInt32 ++ putU64Le b.mBits ++ b.bits

/-- `Bloom::load`. -/
def load (data : Bytes) : Except Fault Bloom :=
  if data.length < 12 then .error (.thrown "Bloom: data too short")
  else
    let k := (getU32Le data).toInt32
    let mBits := getU64Le (data.drop 4)
    let byteCount := ((mBits + 7) / 8).toNat
    if data.length < 12 + byteCount then .error (.thrown "Bloom: truncated bit array")
    else .ok ⟨(data.drop 12).take byteCount, mBits, k⟩

/-! ## No false negatives -/

@[simp] theorem setBit_length (bits : Bytes) (idx : UInt64) :
    (setBit bits idx).length = bits.length := by
  simp [setBit]

theorem bitMask_ne_zero (idx : UInt64) : bitMask idx ≠ 0 := by
  unfold bitMask
  have hm : (idx % 8).toNat < 8 := by
    have := UInt64.toNat_mod_lt (m := 8) idx (by decide)
    exact this
  have h8 : (idx % 8).toUInt8.toNat = (idx % 8).toNat := by
    rw [UInt64.toNat_toUInt8]
    exact Nat.mod_eq_of_lt (by omega)
  have key : ∀ n : Fin 8, (1 : UInt8) <<< (UInt8.ofNat n) ≠ 0 := by decide
  have e : (idx % 8).toUInt8 = UInt8.ofNat (⟨(idx % 8).toNat, hm⟩ : Fin 8) := by
    apply UInt8.toNat_inj.1
    rw [h8, UInt8.toNat_ofNat']
    exact (Nat.mod_eq_of_lt (by omega)).symm
  rw [e]
  exact key _

theorem or_and_byte (x y m : UInt8) : (x ||| y) &&& m = (x &&& m) ||| (y &&& m) := by
  apply UInt8.toBitVec_inj.1
  simp only [UInt8.toBitVec_and, UInt8.toBitVec_or]
  exact BitVec.and_or_distrib_right

theorem testBit_eq_true {bits : Bytes} {idx : UInt64} :
    testBit bits idx = true ↔ bits.getD (idx / 8).toNat 0 &&& bitMask idx ≠ 0 := by
  simp [testBit]

theorem getD_setBit (bits : Bytes) (idx : UInt64) (n : Nat) (h : n < bits.length) :
    (setBit bits idx).getD n 0 =
      if (idx / 8).toNat = n then bits.getD n 0 ||| bitMask idx else bits.getD n 0 := by
  rw [setBit, List.getD_eq_getElem?_getD, List.getElem?_modify, List.getD_eq_getElem?_getD,
    List.getElem?_eq_getElem h]
  rfl

theorem testBit_setBit_self (bits : Bytes) (idx : UInt64) (h : (idx / 8).toNat < bits.length) :
    testBit (setBit bits idx) idx = true := by
  rw [testBit_eq_true, getD_setBit bits idx _ h, if_pos rfl, or_and_byte, UInt8.and_self]
  intro h0
  exact bitMask_ne_zero idx (UInt8.or_eq_zero_iff.1 h0).2

theorem testBit_setBit_mono (bits : Bytes) (idx j : UInt64) (h : testBit bits j = true) :
    testBit (setBit bits idx) j = true := by
  rw [testBit_eq_true] at h ⊢
  have hj : (j / 8).toNat < bits.length := by
    by_contra hge
    rw [List.getD_eq_default _ _ (by omega)] at h
    simp at h
  rw [getD_setBit bits idx _ hj]
  split
  · rw [or_and_byte]
    intro h0
    exact h (UInt8.or_eq_zero_iff.1 h0).1
  · exact h

theorem foldl_setBit_length (is : List UInt64) (bits : Bytes) :
    (is.foldl setBit bits).length = bits.length := by
  induction is generalizing bits with
  | nil => rfl
  | cons i is ih => rw [List.foldl_cons, ih, setBit_length]

theorem foldl_setBit_mono (is : List UInt64) (bits : Bytes) (j : UInt64)
    (h : testBit bits j = true) : testBit (is.foldl setBit bits) j = true := by
  induction is generalizing bits with
  | nil => exact h
  | cons i is ih => exact ih _ (testBit_setBit_mono bits i j h)

theorem foldl_setBit_mem {is : List UInt64} {bits : Bytes} {j : UInt64} (hj : j ∈ is)
    (hb : (j / 8).toNat < bits.length) : testBit (is.foldl setBit bits) j = true := by
  induction is generalizing bits with
  | nil => simp at hj
  | cons i is ih =>
    rw [List.foldl_cons]
    rcases List.mem_cons.1 hj with rfl | hj
    · exact foldl_setBit_mono is _ j (testBit_setBit_self bits j hb)
    · exact ih hj (by rwa [setBit_length])

/-- A filter whose bit array has exactly `m_bits` bits, as the constructor makes it. -/
structure Wf (b : Bloom) : Prop where
  pos : 0 < b.mBits.toNat
  bytes : b.bits.length * 8 = b.mBits.toNat

theorem sizeBits_spec (keyCount bitsPerKey : Nat) :
    8 ≤ (sizeBits keyCount bitsPerKey).toNat ∧ (sizeBits keyCount bitsPerKey).toNat % 8 = 0 := by
  unfold sizeBits
  dsimp only
  generalize UInt64.ofNat (if keyCount = 0 then 1 else keyCount) * UInt64.ofNat bitsPerKey + 7 = r
  have h8 : (8 : UInt64).toNat = 8 := rfl
  have hr := r.toNat_lt
  by_cases h : r / 8 * 8 < 8
  · rw [if_pos h]
    decide
  · rw [if_neg h]
    rw [UInt64.lt_iff_toNat_lt] at h
    refine ⟨by rw [h8] at h; omega, ?_⟩
    rw [UInt64.toNat_mul, UInt64.toNat_div, h8]
    omega

theorem wf_new (keyCount bitsPerKey : Nat) : (new keyCount bitsPerKey).Wf := by
  obtain ⟨h8, hmod⟩ := sizeBits_spec keyCount bitsPerKey
  refine ⟨by simp only [new]; omega, ?_⟩
  simp only [new, List.length_replicate, UInt64.toNat_div]
  have h8 : (8 : UInt64).toNat = 8 := rfl
  rw [h8]
  omega

theorem Wf.add {b : Bloom} (h : b.Wf) (key : Bytes) : (b.add key).Wf := by
  refine ⟨h.pos, ?_⟩
  simp only [Bloom.add, foldl_setBit_length]
  exact h.bytes

/-- A filter whose bit array has at least `m_bits` bits, and one of them. -/
structure Usable (b : Bloom) : Prop where
  pos : 0 < b.mBits.toNat
  bytes : b.mBits.toNat ≤ b.bits.length * 8

theorem Wf.usable {b : Bloom} (h : b.Wf) : b.Usable := ⟨h.pos, h.bytes.ge⟩

/-- Every probe of a usable filter lands in its bit array. -/
theorem Usable.probe_lt {b : Bloom} (h : b.Usable) (key : Bytes) (i : Nat) :
    (probe b.mBits key i / 8).toNat < b.bits.length := by
  have hb := h.bytes
  have h8 : (8 : UInt64).toNat = 8 := rfl
  rw [probe, UInt64.toNat_div, UInt64.toNat_mod, h8]
  have := Nat.mod_lt ((hash1 key).toUInt64 + UInt64.ofNat i * (hash2 key).toUInt64).toNat h.pos
  omega

theorem mayContain_add_self {b : Bloom} (h : b.Wf) (key : Bytes) :
    (b.add key).mayContain key = true := by
  rw [mayContain, List.all_eq_true]
  intro j hj
  refine foldl_setBit_mem hj ?_
  obtain ⟨i, -, rfl⟩ := List.mem_map.1 hj
  exact h.usable.probe_lt key i

theorem mayContain_add_mono {b : Bloom} {key : Bytes} (k : Bytes) (h : b.mayContain key = true) :
    (b.add k).mayContain key = true := by
  rw [mayContain, List.all_eq_true] at h ⊢
  intro j hj
  exact foldl_setBit_mono _ _ j (h j hj)

/-- The loop of `SSTableWriter::finish` over the collected keys. -/
def addAll (b : Bloom) (keys : List Bytes) : Bloom := keys.foldl add b

theorem wf_addAll {b : Bloom} (h : b.Wf) (keys : List Bytes) : (b.addAll keys).Wf := by
  induction keys generalizing b with
  | nil => exact h
  | cons k keys ih => exact ih (h.add k)

theorem bits_length_addAll (b : Bloom) (keys : List Bytes) :
    (b.addAll keys).bits.length = b.bits.length := by
  induction keys generalizing b with
  | nil => rfl
  | cons k keys ih => exact (ih (b.add k)).trans (foldl_setBit_length _ _)

theorem mayContain_addAll_mono {b : Bloom} {key : Bytes} (keys : List Bytes)
    (h : b.mayContain key = true) : (b.addAll keys).mayContain key = true := by
  induction keys generalizing b with
  | nil => exact h
  | cons k keys ih => exact ih (mayContain_add_mono k h)

theorem mayContain_addAll {b : Bloom} (h : b.Wf) {keys : List Bytes} {key : Bytes}
    (hk : key ∈ keys) : (b.addAll keys).mayContain key = true := by
  induction keys generalizing b with
  | nil => simp at hk
  | cons k keys ih =>
    rcases List.mem_cons.1 hk with rfl | hk
    · exact mayContain_addAll_mono keys (mayContain_add_self h key)
    · exact ih (h.add k) hk

/-! ## The serialized form -/

theorem serialize_length (b : Bloom) : b.serialize.length = 12 + b.bits.length := by
  simp [serialize]
  omega

theorem load_serialize {b : Bloom} (h : b.Wf) : load b.serialize = .ok b := by
  have hb := h.bytes
  have hlt := b.mBits.toNat_lt
  have hcount : ((b.mBits + 7) / 8).toNat = b.bits.length := by
    rw [UInt64.toNat_div, UInt64.toNat_add]
    have h7 : (7 : UInt64).toNat = 7 := rfl
    have h8 : (8 : UInt64).toNat = 8 := rfl
    rw [h7, h8]
    omega
  have hk : getU32Le b.serialize = b.k.toUInt32 := by
    rw [serialize, List.append_assoc, getU32Le_putU32Le]
  have hm : getU64Le (b.serialize.drop 4) = b.mBits := by
    rw [serialize, List.append_assoc, List.drop_left' (putU32Le_length _), getU64Le_putU64Le]
  have hd : b.serialize.drop 12 = b.bits := by
    rw [serialize, List.drop_left' (by simp)]
  unfold load
  rw [if_neg (by rw [serialize_length]; omega)]
  simp only [hk, hm, hd, hcount]
  rw [if_neg (by rw [serialize_length]; omega), List.take_length]
  rfl

end Bloom

end Keystone
