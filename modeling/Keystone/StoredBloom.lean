/-
  The bloom filter read from a file.

  `mayContainChecked` is the loop of `Bloom::may_contain` with the division and the array access
  checked; where both are fine it is `mayContain` (`mayContainChecked_eq`).

  * `no_false_negatives`: a filter of any size answers yes for all keys added to it, before and
    after it has been stored, and the filter of a table for all keys of the table.
  * `load_usable_iff`: what `Bloom::load` accepts can be used exactly if it makes no probe, or its
    `m_bits` is neither zero nor among the last seven values of 64 bits. `load_unusable`: it
    accepts those too.
-/
import Keystone.SSTableLayout

namespace Keystone

namespace Bloom

/-- The two things `may_contain` could do that C++ leaves undefined. -/
inductive Trap where
  | divisionByZero
  | outOfBounds
  deriving DecidableEq, Repr

/-- The loop of `may_contain` over the probes that are left. -/
def mayContainLoop (b : Bloom) (key : Bytes) : List Nat → Except Trap Bool
  | [] => .ok true
  | i :: is =>
    if b.mBits = 0 then .error .divisionByZero
    else if b.bits.length ≤ (probe b.mBits key i / 8).toNat then .error .outOfBounds
    else if testBit b.bits (probe b.mBits key i) then mayContainLoop b key is
    else .ok false

/-- `Bloom::may_contain` with its arithmetic checked. -/
def mayContainChecked (b : Bloom) (key : Bytes) : Except Trap Bool :=
  b.mayContainLoop key (List.range b.k.toInt.toNat)

theorem Usable.loop {b : Bloom} (h : b.Usable) (key : Bytes) (is : List Nat) :
    b.mayContainLoop key is = .ok ((is.map (probe b.mBits key)).all (testBit b.bits)) := by
  have hm : b.mBits ≠ 0 := by
    intro h0
    have hpos := h.pos
    rw [h0] at hpos
    exact absurd hpos (by decide)
  induction is with
  | nil => rfl
  | cons i is ih =>
    rw [mayContainLoop, if_neg hm, if_neg (not_le.2 (h.probe_lt key i)), ih]
    cases ht : testBit b.bits (probe b.mBits key i) <;> simp [ht]

theorem mayContainChecked_eq {b : Bloom} (h : b.Usable) (key : Bytes) :
    b.mayContainChecked key = .ok (b.mayContain key) :=
  h.loop key _

/-- The number of probes does not matter to well-formedness. -/
theorem Wf.setK {b : Bloom} (h : b.Wf) (k : Int32) : ({ b with k := k } : Bloom).Wf :=
  ⟨h.pos, h.bytes⟩

end Bloom

open Bloom

/-- The filter of an opened table never hides a key that was written to it. -/
theorem mayContain_writeTable {es : List Entry} {file : Bytes} {t : SSTable}
    (hw : writeTable es = some file) (ho : SSTable.open file = .ok t) {e : Entry} (he : e ∈ es) :
    t.mayContain e.key = true := by
  have hes : es ≠ [] := List.ne_nil_of_mem he
  rw [writeTable_eq] at hw
  split at hw
  · rename_i hmax
    obtain rfl := Option.some.inj hw
    obtain ⟨-, rfl⟩ := (open_tableFile_iff hmax).1 ho
    simp only [SSTable.mayContain, tableOf, if_neg hes]
    exact mayContain_addAll (wf_new _ _) (List.mem_map_of_mem he)
  · simp at hw

/-- **No false negatives**, in memory, through the stored form and in a table. -/
theorem no_false_negatives (keys : List Bytes) (keyCount bitsPerKey : Nat) (k : Int32) :
    (∀ key ∈ keys, (({ Bloom.new keyCount bitsPerKey with k := k } : Bloom).addAll
      keys).mayContainChecked key = .ok true) ∧
    (∃ b, Bloom.load (({ Bloom.new keyCount bitsPerKey with k := k } : Bloom).addAll
        keys).serialize = .ok b ∧
      ∀ key, b.mayContainChecked key = (({ Bloom.new keyCount bitsPerKey with k := k } :
        Bloom).addAll keys).mayContainChecked key) ∧
    ∀ es file t, writeTable es = some file → SSTable.open file = .ok t →
      ∀ e ∈ es, t.mayContain e.key = true := by
  have hnew : ({ Bloom.new keyCount bitsPerKey with k := k } : Bloom).Wf := (wf_new _ _).setK k
  have hwf := wf_addAll hnew keys
  refine ⟨fun key hkey => ?_, ⟨_, load_serialize hwf, fun _ => rfl⟩,
    fun es file t hw ho e he => mayContain_writeTable hw ho he⟩
  rw [mayContainChecked_eq hwf.usable, mayContain_addAll hnew hkey]

/-- The length of the bit array `load` cuts out. -/
theorem load_bytes {data : Bytes} {b : Bloom} (h : Bloom.load data = .ok b) :
    b.bits.length = (b.mBits.toNat + 7) % 2 ^ 64 / 8 := by
  unfold Bloom.load at h
  split at h
  · simp at h
  · simp only at h
    split at h
    · simp at h
    · rename_i hlen
      obtain rfl := Except.ok.inj h
      have hcount : ((getU64Le (data.drop 4) + 7) / 8).toNat =
          ((getU64Le (data.drop 4)).toNat + 7) % 2 ^ 64 / 8 := by
        rw [UInt64.toNat_div, UInt64.toNat_add]
        rfl
      simp only [hcount, List.length_take, List.length_drop] at hlen ⊢
      omega

/-- Without probes nothing is looked at. -/
theorem mayContainChecked_of_nonpos {b : Bloom} (hk : b.k ≤ 0) (key : Bytes) :
    b.mayContainChecked key = .ok (b.mayContain key) := by
  have hnone : b.k.toInt.toNat = 0 := Int.toNat_eq_zero.2 (Int32.le_iff_toInt_le.1 hk)
  rw [mayContainChecked, mayContain, probes, hnone]
  rfl

/-- The first probe of any key traps if the modulus is zero or the bit array empty. -/
theorem mayContainChecked_traps {b : Bloom} (hk : ¬ b.k ≤ 0)
    (h : b.mBits = 0 ∨ b.bits.length = 0) (key : Bytes) :
    ∃ trap, b.mayContainChecked key = .error trap := by
  have hpos : 0 < b.k.toInt := not_le.1 fun hle => hk (Int32.le_iff_toInt_le.2 hle)
  obtain ⟨n, hn⟩ : ∃ n, b.k.toInt.toNat = n + 1 := ⟨b.k.toInt.toNat - 1, by omega⟩
  rw [mayContainChecked, hn, List.range_succ_eq_map, mayContainLoop]
  by_cases hm : b.mBits = 0
  · exact ⟨_, if_pos hm⟩
  · rw [if_neg hm, if_pos]
    · exact ⟨_, rfl⟩
    · rw [h.resolve_left hm]
      exact Nat.zero_le _

/-- **When a loaded filter can be used**, for any key: it makes no probe, or its `m_bits` is not
    zero and rounds up without wrapping. Otherwise the first probe divides by zero or looks outside
    of the bit array. -/
theorem load_usable_iff {data : Bytes} {b : Bloom} (h : Bloom.load data = .ok b) (key : Bytes) :
    b.mayContainChecked key = .ok (b.mayContain key) ↔
      b.k ≤ 0 ∨ (b.mBits ≠ 0 ∧ b.mBits.toNat + 7 < 2 ^ 64) := by
  have hbytes := load_bytes h
  constructor
  · intro hok
    by_contra hbad
    rw [not_or, not_and_or, not_not] at hbad
    obtain ⟨trap, htrap⟩ := mayContainChecked_traps hbad.1 (hbad.2.imp_right fun hwrap => by
      have := b.mBits.toNat_lt
      omega) key
    rw [htrap] at hok
    exact nomatch hok
  · rintro (hk | ⟨hzero, hwrap⟩)
    · exact mayContainChecked_of_nonpos hk key
    · refine mayContainChecked_eq ⟨Nat.pos_of_ne_zero fun h0 => hzero ?_, ?_⟩ key
      · exact UInt64.toNat_inj.1 h0
      · omega

/-- A filter of five bits in one byte, and one that makes no probe. -/
theorem load_usable_five : (Bloom.mk [255] 5 3).mayContainChecked [1, 2, 3] = .ok true ∧
    (Bloom.mk [] 0 (-1)).mayContainChecked [1, 2, 3] = .ok true := by
  have hload : Bloom.load (putU32Le 3 ++ putU64Le 5 ++ [255]) = .ok ⟨[255], 5, 3⟩ := by
    decide +kernel
  have hnone : Bloom.load (putU32Le (2 ^ 32 - 1) ++ putU64Le 0) = .ok ⟨[], 0, -1⟩ := by
    decide +kernel
  refine ⟨((load_usable_iff hload _).2 (Or.inr (by decide))).trans (congrArg _ ?_),
    ((load_usable_iff hnone _).2 (Or.inl (by decide))).trans (congrArg _ ?_)⟩
  · decide +kernel
  · decide +kernel

/-- Twelve bytes are enough for a filter that divides by zero, and for one whose bit array is
    empty. -/
theorem load_unusable :
    (∃ b, Bloom.load (putU32Le 1 ++ putU64Le 0) = .ok b ∧
      b.mayContainChecked [] = .error .divisionByZero) ∧
    ∃ b, Bloom.load (putU32Le 1 ++ putU64Le (2 ^ 64 - 1)) = .ok b ∧
      b.mayContainChecked [] = .error .outOfBounds :=
  ⟨⟨⟨[], 0, 1⟩, by decide +kernel, by decide +kernel⟩,
    ⟨⟨[], 2 ^ 64 - 1, 1⟩, by decide +kernel, by decide +kernel⟩⟩

end Keystone
