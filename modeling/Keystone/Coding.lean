/-
  `src/coding.h` and `src/crc32.cpp`: little-endian fields, exact reads, CRC-32.

  Byte strings are lists of bytes, compared lexicographically on unsigned bytes as
  `std::string` compares. A file descriptor being read is the list of bytes not yet read.
  Bytes and 64-bit counters get the linear orders Mathlib's order lemmas ask for.
-/
import Mathlib
import Keystone.Lib.LittleEndian

/-! ## The orders of bytes and of counters -/

instance UInt8.instLinearOrder : LinearOrder UInt8 where
  le_refl _ := UInt8.le_refl _
  le_trans _ _ _ := UInt8.le_trans
  le_antisymm _ _ := UInt8.le_antisymm
  le_total _ _ := UInt8.le_total _ _
  lt_iff_le_not_ge a b := by
    rw [UInt8.lt_iff_toNat_lt, UInt8.le_iff_toNat_le, UInt8.le_iff_toNat_le]
    omega
  toDecidableLE := inferInstance
  toDecidableEq := inferInstance
  toDecidableLT := inferInstance

instance UInt64.instLinearOrder : LinearOrder UInt64 where
  le_refl _ := UInt64.le_refl _
  le_trans _ _ _ := UInt64.le_trans
  le_antisymm _ _ := UInt64.le_antisymm
  le_total _ _ := UInt64.le_total _ _
  lt_iff_le_not_ge a b := by
    rw [UInt64.lt_iff_toNat_lt, UInt64.le_iff_toNat_le, UInt64.le_iff_toNat_le]
    omega
  toDecidableLE := inferInstance
  toDecidableEq := inferInstance
  toDecidableLT := inferInstance

namespace Keystone

open LittleEndian

/-- `std::string`, `std::vector<uint8_t>` and file contents. -/
abbrev Bytes := List UInt8

/-! ## Fixed-width fields -/

/-- `coding::put_u32_le`. -/
def putU32Le (v : UInt32) : Bytes := putLe 4 v.toNat

/-- `coding::get_u32_le`. -/
def getU32Le (buf : Bytes) : UInt32 := UInt32.ofNat (getLe 4 buf)

/-- `coding::put_u64_le`. -/
def putU64Le (v : UInt64) : Bytes := putLe 8 v.toNat

/-- `coding::get_u64_le`. -/
def getU64Le (buf : Bytes) : UInt64 := UInt64.ofNat (getLe 8 buf)

@[simp] theorem putU32Le_length (v : UInt32) : (putU32Le v).length = 4 := putLe_length 4 _

@[simp] theorem putU64Le_length (v : UInt64) : (putU64Le v).length = 8 := putLe_length 8 _

@[simp] theorem getU32Le_putU32Le (v : UInt32) (r : Bytes) : getU32Le (putU32Le v ++ r) = v := by
  rw [getU32Le, putU32Le, getLe_putLe_of_lt (by simpa using v.toNat_lt), UInt32.ofNat_toNat]

@[simp] theorem getU64Le_putU64Le (v : UInt64) (r : Bytes) : getU64Le (putU64Le v ++ r) = v := by
  rw [getU64Le, putU64Le, getLe_putLe_of_lt (by simpa using v.toNat_lt), UInt64.ofNat_toNat]

@[simp] theorem getU32Le_putU32Le' (v : UInt32) : getU32Le (putU32Le v) = v := by
  simpa using getU32Le_putU32Le v []

@[simp] theorem getU64Le_putU64Le' (v : UInt64) : getU64Le (putU64Le v) = v := by
  simpa using getU64Le_putU64Le v []

theorem putU32Le_getU32Le {bs : Bytes} (h : 4 ≤ bs.length) :
    putU32Le (getU32Le bs) = bs.take 4 := by
  rw [putU32Le, getU32Le, UInt32.toNat_ofNat_of_lt' (getLe_lt 4 bs), putLe_getLe_take h]

theorem putU64Le_getU64Le {bs : Bytes} (h : 8 ≤ bs.length) :
    putU64Le (getU64Le bs) = bs.take 8 := by
  rw [putU64Le, getU64Le, UInt64.toNat_ofNat_of_lt' (getLe_lt 8 bs), putLe_getLe_take h]

/-- A length cast to `uint32_t` is kept when it fits. -/
theorem toNat_u32_of_lt {n : Nat} (h : n < 2 ^ 32) : (UInt32.ofNat n).toNat = n := by
  rw [UInt32.toNat_ofNat']
  exact Nat.mod_eq_of_lt h

theorem toNat_u64_of_lt {n : Nat} (h : n < 2 ^ 64) : (UInt64.ofNat n).toNat = n := by
  rw [UInt64.toNat_ofNat']
  exact Nat.mod_eq_of_lt h

/-! ## Exact reads -/

/-- `io::read_fully`: the next `count` bytes and what is left, or `none` at a short read. -/
def readFully (count : Nat) (fd : Bytes) : Option (Bytes × Bytes) :=
  if count ≤ fd.length then some (fd.take count, fd.drop count) else none

theorem readFully_append {n : Nat} {a : Bytes} (h : a.length = n) (r : Bytes) :
    readFully n (a ++ r) = some (a, r) := by
  subst h
  simp [readFully]

/-- A successful read splits the input. -/
theorem readFully_eq_some {n : Nat} {fd a r : Bytes} (h : readFully n fd = some (a, r)) :
    fd = a ++ r ∧ a.length = n := by
  unfold readFully at h
  split at h
  · simp only [Option.some.injEq, Prod.mk.injEq] at h
    obtain ⟨rfl, rfl⟩ := h
    exact ⟨(List.take_append_drop n fd).symm, by simp [*]⟩
  · simp at h

/-! ## CRC-32 -/

/-- One of the eight steps that fill a table entry. -/
def crcStep (c : UInt32) : UInt32 :=
  if c &&& 1 ≠ 0 then (0xEDB88320 : UInt32) ^^^ (c >>> 1) else c >>> 1

/-- `kTable.entries`. -/
def kTable : List UInt32 :=
  (List.range 256).map fun i => crcStep^[8] (UInt32.ofNat i)

/-- One byte of the table-driven update. -/
def crcByte (crc : UInt32) (b : UInt8) : UInt32 :=
  kTable.getD ((crc ^^^ b.toUInt32) &&& 0xFF).toNat 0 ^^^ (crc >>> 8)

/-- `crc32`. -/
def crc32 (data : Bytes) : UInt32 := data.foldl crcByte 0xFFFFFFFF ^^^ 0xFFFFFFFF

/-- The known answer of `CRC32Test.KnownAnswerVector`: `crc32("123456789")`. -/
example : crc32 [49, 50, 51, 52, 53, 54, 55, 56, 57] = 0xCBF43926 := by decide +kernel

end Keystone
