/-
  Point lookups in a table: `SSTable::get` on a file made by `SSTableWriter`.

  A block is read back as its entries, or as nothing if it does not come with one `pread`. The
  index search takes the last block whose first key is at most the key, and the scan of that
  block is the lookup in its entries. The rest of the key's versions are not looked at, so the
  answer is that of the whole list exactly when every block is read and the versions left behind
  in the previous block would have given the same one (`get_writeTable_iff`).
-/
import Keystone.SSTableLayout

namespace Keystone

open Frame SSTableWriter

/-! ## One entry -/

/-- The value bytes `add` writes; a tombstone has none. -/
def Entry.storedValue (e : Entry) : Bytes := if e.tombstone then [] else e.value

/-- The 17 bytes in front of the key. -/
def entryHeader (e : Entry) : Bytes :=
  (if e.tombstone then 1 else 0) :: (putU64Le e.seq ++
    (putU32Le (UInt32.ofNat e.key.length) ++
      putU32Le (if e.tombstone then 0 else UInt32.ofNat e.value.length)))

theorem entryHeader_length (e : Entry) : (entryHeader e).length = 17 := by
  simp [entryHeader]

theorem encodeEntry_eq (e : Entry) :
    encodeEntry e = entryHeader e ++ (e.key ++ e.storedValue) := by
  simp [encodeEntry, entryHeader, Entry.storedValue]

theorem entryHdr_three : SSTable.entryHdr kFormatVersion = 17 := rfl

theorem storedValue_length {e : Entry} (h : e.Fits) :
    (if e.tombstone then (0 : UInt32) else UInt32.ofNat e.value.length).toNat =
      e.storedValue.length := by
  unfold Entry.storedValue
  cases ht : e.tombstone with
  | true => simp
  | false => simpa using toNat_u32_of_lt (h.2 ht)

theorem parseHeader_entryHeader {e : Entry} (h : e.Fits) (rest : Bytes) :
    SSTable.parseHeader kFormatVersion (entryHeader e ++ rest) =
      ⟨if e.tombstone then 1 else 0, e.seq, e.key.length, e.storedValue.length⟩ := by
  have h1 : (entryHeader e ++ rest).drop 1 = putU64Le e.seq ++
      (putU32Le (UInt32.ofNat e.key.length) ++
        (putU32Le (if e.tombstone then 0 else UInt32.ofNat e.value.length) ++ rest)) := by
    simp [entryHeader]
  have h9 : (entryHeader e ++ rest).drop 9 = putU32Le (UInt32.ofNat e.key.length) ++
      (putU32Le (if e.tombstone then 0 else UInt32.ofNat e.value.length) ++ rest) := by
    rw [show 9 = 1 + 8 from rfl, ← List.drop_drop, h1, List.drop_left' (putU64Le_length _)]
  unfold SSTable.parseHeader
  simp only [entryHdr_three, Nat.reduceSub, h1, h9, getU64Le_putU64Le, getU32Le_putU32Le,
    List.drop_left' (putU32Le_length _), toNat_u32_of_lt h.1, storedValue_length h]
  rfl

/-! ## The scan of a block -/

theorem result_of_tag (e : Entry) :
    (if (if e.tombstone then (1 : UInt8) else 0) = 1 then LookupResult.deleted
      else .found e.storedValue) = e.result := by
  unfold Entry.result Entry.storedValue
  cases e.tombstone <;> simp

theorem getLoop_cons {e : Entry} (h : e.Fits) (k : Bytes) (s : UInt64) (fuel : Nat)
    (rest : Bytes) :
    SSTable.getLoop kFormatVersion k s (fuel + 1) (encodeEntry e ++ rest) =
      if e.key = k ∧ e.seq ≤ s then e.result
      else if e.key > k then .notFound
      else SSTable.getLoop kFormatVersion k s fuel rest := by
  have hb : (encodeEntry e ++ rest).drop 17 = e.key ++ (e.storedValue ++ rest) := by
    rw [encodeEntry_eq, List.append_assoc, List.drop_left' (entryHeader_length e),
      List.append_assoc]
  have hh : SSTable.parseHeader kFormatVersion (encodeEntry e ++ rest) =
      ⟨if e.tombstone then 1 else 0, e.seq, e.key.length, e.storedValue.length⟩ := by
    rw [encodeEntry_eq, List.append_assoc]
    exact parseHeader_entryHeader h _
  rw [SSTable.getLoop, entryHdr_three, if_neg (by simp [encodeEntry_eq, entryHeader_length])]
  simp only [hh, hb]
  rw [if_neg (by simp)]
  simp only [List.take_left, List.drop_left, result_of_tag]
  by_cases hk : e.key = k
  · rw [if_pos hk]
    by_cases hs : e.seq ≤ s
    · rw [if_pos hs, if_pos (And.intro hk hs)]
    · rw [if_neg hs, if_neg (fun hn => hs hn.2), if_neg (by rw [hk]; exact lt_irrefl k)]
  · have hmiss : ¬ (e.key = k ∧ e.seq ≤ s) := fun hn => hk hn.1
    rw [if_neg hk, if_neg hmiss]

/-- The scan stops at the first hit or at the first larger key. -/
theorem getLoop_encodeEntries {b : List Entry} (hf : ∀ e ∈ b, e.Fits) (hs : SortedLe b)
    (k : Bytes) (s : UInt64) {fuel : Nat} (hfuel : b.length < fuel) :
    SSTable.getLoop kFormatVersion k s fuel (encodeEntries b) = lookupIn b k s := by
  rw [lookupIn_eq_find hs]
  induction b generalizing fuel with
  | nil =>
    cases fuel with
    | zero => rfl
    | succ fuel => rfl
  | cons e b ih =>
    obtain ⟨fuel, rfl⟩ : ∃ f, fuel = f + 1 := ⟨fuel - 1, by simp at hfuel; omega⟩
    rw [SortedLe, List.pairwise_cons] at hs
    rw [encodeEntries, List.flatMap_cons, ← encodeEntries,
      getLoop_cons (hf e (List.mem_cons_self ..))]
    by_cases hit : e.key = k ∧ e.seq ≤ s
    · rw [if_pos hit, List.find?_cons_of_pos (by simpa using hit)]
      rfl
    · rw [if_neg hit, List.find?_cons_of_neg (by simpa using hit)]
      by_cases hgt : e.key > k
      · have hnone : (b.find? fun e => e.key = k ∧ e.seq ≤ s) = none := by
          rw [List.find?_eq_none]
          intro x hx
          have : e.key ≤ x.key := (hs.1 x hx).key_le
          simp only [decide_eq_true_eq, not_and]
          intro hxk
          exact absurd (hxk ▸ this) (not_le.2 hgt)
        rw [if_pos hgt, hnone]
        rfl
      · rw [if_neg hgt]
        exact ih (fun x hx => hf x (List.mem_cons_of_mem e hx)) hs.2
          (by simp at hfuel; omega)

/-! ## Reading a block -/

theorem length_le_encodeEntries (b : List Entry) : b.length ≤ (encodeEntries b).length := by
  induction b with
  | nil => simp
  | cons e b ih =>
    have : 0 < (encodeEntry e).length := List.length_pos_iff.2 (encodeEntry_ne_nil e)
    simp only [encodeEntries, List.flatMap_cons, List.length_append, List.length_cons] at ih ⊢
    omega

theorem length_indexOf (off : Nat) (bs : List (List Entry)) :
    (indexOf off bs).length = bs.length := by
  induction bs generalizing off with
  | nil => rfl
  | cons b bs ih => simp [indexOf, ih]

/-- The index entry of block `i` and the bytes it stands for. -/
theorem pread_tableOf {es : List Entry} (hmax : (tableFile es).length ≤ maxFileSize)
    {as bs : List (List Entry)} {b : List Entry} (h : blocksOf es = as ++ b :: bs) :
    ∃ ie, (tableOf es).index[as.length]? = some ie ∧ ie.firstKey = headKey b ∧
      ie.length.toNat = (blockBytes b).length ∧
      ((tableOf es).file.drop ie.offset.toNat).take ie.length.toNat = blockBytes b ∧
      SSTable.pread (tableOf es).file ie.length ie.offset =
        if BlockFits b then some (blockBytes b) else none := by
  have hidx : (tableOf es).index = indexOf 0 as ++
      ⟨headKey b, UInt64.ofNat (as.flatMap blockBytes).length,
        UInt64.ofNat (blockBytes b).length⟩ ::
      indexOf (0 + (as.flatMap blockBytes).length + (blockBytes b).length) bs := by
    rw [tableOf, h, indexOf_append, indexOf, Nat.zero_add]
  have hfile : tableFile es = as.flatMap blockBytes ++ (blockBytes b ++
      (bs.flatMap blockBytes ++ (indexPart es ++ ((bloomOf es).serialize ++
        encodeFooter (footerOf es))))) := by
    simp [tableFile, blockPart, h]
  have hm : maxFileSize < 2 ^ 64 := by decide
  have hlen : (tableFile es).length = (as.flatMap blockBytes).length + ((blockBytes b).length +
      (bs.flatMap blockBytes ++ (indexPart es ++ ((bloomOf es).serialize ++
        encodeFooter (footerOf es)))).length) := by
    rw [hfile, List.length_append, List.length_append]
  have hoff : (UInt64.ofNat (as.flatMap blockBytes).length).toNat = (as.flatMap blockBytes).length :=
    toNat_u64_of_lt (by omega)
  have hsize : (UInt64.ofNat (blockBytes b).length).toNat = (blockBytes b).length :=
    toNat_u64_of_lt (by omega)
  refine ⟨⟨headKey b, UInt64.ofNat (as.flatMap blockBytes).length,
    UInt64.ofNat (blockBytes b).length⟩, ?_, rfl, hsize, ?_, ?_⟩
  · rw [hidx, List.getElem?_append_right (by rw [length_indexOf]), length_indexOf, Nat.sub_self,
      List.getElem?_cons_zero]
  · show ((tableFile es).drop _).take _ = _
    rw [hoff, hsize, hfile, List.drop_left, List.take_left]
  · have hread := pread_middle_eq hfile hmax
    rw [blockBytes_length] at hread ⊢
    exact hread

theorem pread_length_le {file buf : Bytes} {len off : UInt64}
    (h : SSTable.pread file len off = some buf) :
    buf.length = len.toNat ∧ len.toNat ≤ file.length ∧ len.toNat ≤ maxTransfer := by
  unfold SSTable.pread at h
  split at h
  · rename_i hc
    rw [← Option.some.inj h, List.length_take, List.length_drop]
    rcases hc.2 with rfl | hc
    · simp
    · omega
  · simp at h

/-- `read_block` strips the CRC of a block whose CRC matches. -/
theorem readBlock_of_pread {t : SSTable} {ie : IndexEntry} {payload : Bytes}
    (hver : t.footer.formatVersion ≥ 3) (hmax : t.file.length ≤ maxFileSize)
    (h : SSTable.pread t.file ie.length ie.offset = some (payload ++ putU32Le (crc32 payload))) :
    t.readBlock ie = .ok payload := by
  have hlen := pread_length_le h
  have halloc : SSTable.allocate ie.length = .ok () := by
    unfold SSTable.allocate
    rw [if_neg (by omega)]
  have hcrc : (payload ++ putU32Le (crc32 payload)).length - 4 = payload.length := by simp
  have hge : t.footer.formatVersion ≥ 3 ∧ (payload ++ putU32Le (crc32 payload)).length ≥ 4 :=
    ⟨hver, by simp⟩
  unfold SSTable.readBlock
  simp only [halloc, h, Option.getD_some, if_pos hge, hcrc, List.take_left, List.drop_left,
    getU32Le_putU32Le', ne_eq, not_true_eq_false, if_false]
  rfl

/-- A block that does not come with one `pread` is taken for an empty one. -/
theorem readBlock_of_short {t : SSTable} {ie : IndexEntry}
    (halloc : ie.length.toNat ≤ maxFileSize)
    (h : SSTable.pread t.file ie.length ie.offset = none) : t.readBlock ie = .ok [] := by
  have hok : SSTable.allocate ie.length = .ok () := by
    unfold SSTable.allocate
    rw [if_neg (by omega)]
  unfold SSTable.readBlock
  simp only [hok, h, Option.getD_none]
  exact if_neg fun hc => absurd hc.2 (by decide)

/-- What `read_block` gives back of a block. -/
def readBack (b : List Entry) : List Entry := if BlockFits b then b else []

theorem readBack_fits {b : List Entry} {e : Entry} (he : e ∈ readBack b) : e.Fits := by
  unfold readBack at he
  split at he
  · rename_i hb
    exact hb.fits he
  · simp at he

theorem readBack_sublist (b : List Entry) : (readBack b).Sublist b := by
  unfold readBack
  split
  · exact List.Sublist.refl b
  · exact List.nil_sublist b

theorem readBlock_tableOf {es : List Entry} (hmax : (tableFile es).length ≤ maxFileSize)
    {as bs : List (List Entry)} {b : List Entry} (h : blocksOf es = as ++ b :: bs) :
    ∃ ie, (tableOf es).index[as.length]? = some ie ∧ ie.firstKey = headKey b ∧
      (tableOf es).readBlock ie = .ok (encodeEntries (readBack b)) := by
  obtain ⟨ie, hie, hfirst, hlen, htake, hread⟩ := pread_tableOf hmax h
  refine ⟨ie, hie, hfirst, ?_⟩
  have hle : ie.length.toNat ≤ maxFileSize := by
    have h1 := congrArg List.length htake
    rw [List.length_take, List.length_drop, ← hlen] at h1
    have h2 : (tableOf es).file.length = (tableFile es).length := rfl
    omega
  unfold readBack
  split at hread
  · rename_i hb
    rw [if_pos hb]
    exact readBlock_of_pread (UInt32.le_refl 3) hmax hread
  · rename_i hb
    rw [if_neg hb]
    exact readBlock_of_short hle hread

/-! ## The index search -/

theorem headKey_mem {b : List Entry} (h : b ≠ []) : ∃ e ∈ b, e.key = headKey b := by
  cases b with
  | nil => exact absurd rfl h
  | cons e b => exact ⟨e, List.mem_cons_self .., rfl⟩

theorem headKey_cutBlocks (c : Entry) (cur es : List Entry) :
    ∃ b bs, cutBlocks (c :: cur) es = b :: bs ∧ headKey b = c.key := by
  induction es generalizing cur with
  | nil => exact ⟨c :: cur, [], rfl, rfl⟩
  | cons e es ih =>
    rw [cutBlocks]
    split
    · exact ⟨c :: cur, _, rfl, rfl⟩
    · exact ih (cur ++ [e])

/-- Two blocks in a row have different first keys: that is the cut rule. -/
theorem isChain_cutBlocks (cur es : List Entry) :
    (cutBlocks cur es).IsChain fun b b' => headKey b ≠ headKey b' := by
  induction es generalizing cur with
  | nil => cases cur <;> simp [cutBlocks]
  | cons e es ih =>
    rw [cutBlocks]
    split
    · rename_i hc
      obtain ⟨b, bs, hb, hk⟩ := headKey_cutBlocks e [] es
      have hrest := ih [e]
      rw [hb] at hrest ⊢
      rw [List.isChain_cons_cons]
      refine ⟨?_, hrest⟩
      rw [hk]
      exact hc.2.2.symm
    · exact ih _

theorem sorted_blocksOf {es : List Entry} (hs : SortedLe es) :
    (∀ b ∈ blocksOf es, SortedLe b) ∧
      (blocksOf es).Pairwise fun a b => ∀ x ∈ a, ∀ y ∈ b, Entry.BeforeEq x y := by
  rw [← flatten_blocksOf es] at hs
  exact List.pairwise_flatten.1 hs

/-- The first keys of the blocks increase strictly. -/
theorem pairwise_headKey {es : List Entry} (hs : SortedLe es) :
    (blocksOf es).Pairwise fun b b' => headKey b < headKey b' := by
  have hle : (blocksOf es).IsChain fun b b' => headKey b < headKey b' := by
    have hpw := (sorted_blocksOf hs).2
    have hall : (blocksOf es).Pairwise fun b b' => headKey b ≤ headKey b' := by
      refine hpw.imp_of_mem fun {a b} ha hb hab => ?_
      obtain ⟨x, hx, hxk⟩ := headKey_mem (cutBlocks_ne_nil ha)
      obtain ⟨y, hy, hyk⟩ := headKey_mem (cutBlocks_ne_nil hb)
      rw [← hxk, ← hyk]
      exact (hab x hx y hy).key_le
    have hne := isChain_cutBlocks [] es
    rw [List.isChain_iff_forall_rel_of_append_cons_cons] at hne ⊢
    intro b b' l l' h
    have hbb := h ▸ hall
    rw [List.pairwise_append, List.pairwise_cons] at hbb
    exact lt_of_le_of_ne (hbb.2.1.1 b' (List.mem_cons_self ..)) (hne h)
  have : IsTrans (List Entry) fun b b' => headKey b < headKey b' := ⟨fun _ _ _ => lt_trans⟩
  exact List.isChain_iff_pairwise.1 hle

/-- The first key `find_block_idx` compares at position `i`. -/
def startKey (es : List Entry) (i : Nat) : Bytes := ((blocksOf es)[i]?.map headKey).getD []

theorem startKey_eq (es : List Entry) (i : Nat) :
    ((tableOf es).index[i]?.map IndexEntry.firstKey).getD [] = startKey es i := by
  have h : ∀ (off : Nat) (bs : List (List Entry)) (i : Nat),
      (indexOf off bs)[i]?.map IndexEntry.firstKey = bs[i]?.map headKey := by
    intro off bs
    induction bs generalizing off with
    | nil => simp [indexOf]
    | cons b bs ih =>
      intro i
      cases i with
      | zero => simp [indexOf]
      | succ i => simpa [indexOf] using ih _ i
  rw [startKey, ← h 0]
  rfl

theorem index_length (es : List Entry) : (tableOf es).index.length = (blocksOf es).length :=
  length_indexOf 0 (blocksOf es)

theorem index_isEmpty (es : List Entry) : (tableOf es).index.isEmpty = true ↔ es = [] := by
  rw [List.isEmpty_iff, ← List.length_eq_zero_iff, index_length, List.length_eq_zero_iff,
    blocksOf_eq_nil]

theorem startKey_strict {es : List Entry} (hs : SortedLe es) {i j : Nat} (hij : i < j)
    (hj : j < (blocksOf es).length) : startKey es i < startKey es j := by
  have := List.pairwise_iff_getElem.1 (pairwise_headKey hs) i j (by omega) hj hij
  simpa [startKey, List.getElem?_eq_getElem hj,
    List.getElem?_eq_getElem (show i < (blocksOf es).length by omega)] using this

/-- What `find_block_idx` returns: nothing when every key is larger, else the block after which
    every block starts behind the key. -/
theorem findBlockIdx_spec {es : List Entry} (hs : SortedLe es) (k : Bytes) :
    ((tableOf es).findBlockIdx k = none ∧ ∀ e ∈ es, k < e.key) ∨
    ∃ as b bs, blocksOf es = as ++ b :: bs ∧ (tableOf es).findBlockIdx k = some as.length ∧
      headKey b ≤ k ∧ ∀ b' ∈ bs, k < headKey b' := by
  unfold SSTable.findBlockIdx
  simp only [startKey_eq, index_isEmpty, index_length]
  by_cases h : es = [] ∨ startKey es 0 > k
  · left
    refine ⟨if_pos h, fun e he => ?_⟩
    rcases h with rfl | h
    · simp at he
    · obtain ⟨c, cs, rfl⟩ := List.exists_cons_of_ne_nil (List.ne_nil_of_mem he)
      have h0 : startKey (c :: cs) 0 = c.key := by
        obtain ⟨b, bs, hb, hk⟩ := headKey_cutBlocks c [] cs
        have hblocks : blocksOf (c :: cs) = cutBlocks [c] cs := by
          rw [blocksOf, cutBlocks, if_neg (fun hc => hc.1 rfl)]
          rfl
        rw [startKey, hblocks, hb]
        simpa using hk
      rw [h0] at h
      rcases List.mem_cons.1 he with rfl | he
      · exact h
      · exact lt_of_lt_of_le h ((List.pairwise_cons.1 hs).1 e he).key_le
  · right
    rw [if_neg h]
    rw [not_or, not_lt] at h
    have hn : 0 < (blocksOf es).length := List.length_pos_iff.2 (mt blocksOf_eq_nil.1 h.1)
    have hinit : Bisect.Initial (fun i => startKey es i ≤ k) (blocksOf es).length := by
      intro i j hij hj hle
      rcases Nat.lt_or_ge i j with hlt | hge
      · exact le_trans (le_of_lt (startKey_strict hs hlt hj)) hle
      · rwa [show i = j by omega]
    obtain ⟨hlt, hhit, hmiss⟩ := Bisect.lastTrue_spec (p := fun i => startKey es i ≤ k) hinit
      (show (blocksOf es).length - 0 ≤ (blocksOf es).length by omega) hn le_rfl h.2
      (fun i h1 h2 => by omega)
    generalize Bisect.lastTrue (fun i => startKey es i ≤ k) (blocksOf es).length 0
      (blocksOf es).length = r at hlt hhit hmiss
    refine ⟨(blocksOf es).take r, (blocksOf es).get ⟨r, hlt⟩, (blocksOf es).drop (r + 1), ?_, ?_,
      ?_, ?_⟩
    · rw [List.get_eq_getElem, ← List.drop_eq_getElem_cons hlt, List.take_append_drop]
    · rw [List.length_take, Nat.min_eq_left (by omega)]
    · simpa [startKey, List.getElem?_eq_getElem hlt] using hhit
    · intro b' hb'
      obtain ⟨j, hj, rfl⟩ := List.mem_iff_getElem.1 hb'
      rw [List.length_drop] at hj
      have := hmiss (r + 1 + j) (by omega) (by omega)
      rw [not_le] at this
      simpa [startKey, List.getElem?_eq_getElem (show r + 1 + j < (blocksOf es).length by omega)]
        using this

/-! ## `get` on a written table -/

theorem mayContain_tableOf {es : List Entry} {e : Entry} (he : e ∈ es) :
    (tableOf es).mayContain e.key = true := by
  simp only [SSTable.mayContain, tableOf, if_neg (List.ne_nil_of_mem he)]
  exact Bloom.mayContain_addAll (Bloom.wf_new _ _) (List.mem_map_of_mem he)

theorem getLoop_readBack {b : List Entry} (hs : SortedLe b) (k : Bytes) (s : UInt64) :
    SSTable.getLoop kFormatVersion k s ((encodeEntries (readBack b)).length + 1)
      (encodeEntries (readBack b)) = lookupIn (readBack b) k s :=
  getLoop_encodeEntries (fun _ he => readBack_fits he) (hs.sublist (readBack_sublist b)) k s
    (Nat.lt_succ_of_le (length_le_encodeEntries _))

/-- `get` is the lookup in what is read of the one block the index search takes. -/
theorem get_tableOf_block {es : List Entry} (hs : SortedLe es)
    (hmax : (tableFile es).length ≤ maxFileSize) {k : Bytes} (hk : ∃ e ∈ es, e.key = k)
    (s : UInt64) {as bs : List (List Entry)} {b : List Entry}
    (hblocks : blocksOf es = as ++ b :: bs)
    (hidx : (tableOf es).findBlockIdx k = some as.length) :
    (tableOf es).get k s = .ok (lookupIn (readBack b) k s) := by
  have hb : b ∈ blocksOf es := by rw [hblocks]; simp
  have hbloom : (tableOf es).mayContain k = true := by
    obtain ⟨e, he, rfl⟩ := hk
    exact mayContain_tableOf he
  obtain ⟨ie, hie, -, hread⟩ := readBlock_tableOf hmax hblocks
  unfold SSTable.get
  rw [if_neg (by simp [hbloom]), hidx]
  simp only [Option.bind_some, hie, hread]
  exact congrArg Except.ok (getLoop_readBack ((sorted_blocksOf hs).1 b hb) k s)

/-- A key the table does not have is not found. -/
theorem get_tableOf_absent {es : List Entry} (hs : SortedLe es)
    (hmax : (tableFile es).length ≤ maxFileSize) {k : Bytes} (hk : ∀ e ∈ es, e.key ≠ k)
    (s : UInt64) : (tableOf es).get k s = .ok .notFound := by
  unfold SSTable.get
  split
  · rfl
  rcases findBlockIdx_spec hs k with ⟨hnone, -⟩ | ⟨as, b, bs, hblocks, hidx, -, -⟩
  · rw [hnone]
    rfl
  · obtain ⟨ie, hie, -, hread⟩ := readBlock_tableOf hmax hblocks
    have hb : b ∈ blocksOf es := by rw [hblocks]; simp
    rw [hidx]
    simp only [Option.bind_some, hie, hread]
    have hsb := (sorted_blocksOf hs).1 b hb
    have hloop := getLoop_readBack hsb k s
    have hmiss : ((readBack b).find? fun e => e.key = k ∧ e.seq ≤ s) = none := by
      rw [List.find?_eq_none]
      intro e he
      simpa using fun h =>
        absurd h (hk e (mem_of_mem_blocksOf hb ((readBack_sublist b).subset he)))
    rw [lookupIn_eq_find (hsb.sublist (readBack_sublist b)), hmiss] at hloop
    exact congrArg Except.ok hloop

/-- Where a key's versions are split over two blocks, every version in the first block gives
    the same answer as the newest version in the second. -/
def SplitsAgree (blocks : List (List Entry)) : Prop :=
  blocks.IsChain fun b b' => ∀ e ∈ b, e.key = headKey b' → some e.result = b'.head?.map Entry.result

/-- At the first key of a block, the block answers with its first entry for every snapshot
    from that entry on. -/
theorem lookupIn_head {b : List Entry} (hs : SortedLe b) {c : Entry} (hc : b.head? = some c)
    {s : UInt64} (hle : c.seq ≤ s) : lookupIn b c.key s = c.result := by
  cases b with
  | nil => simp at hc
  | cons c' b =>
    obtain rfl : c' = c := by simpa using hc
    rw [lookupIn_eq_find hs, List.find?_cons_of_pos (by simpa using hle)]
    rfl

/-- The lookup at an entry's own sequence number stops at it. -/
theorem lookupIn_self {es : List Entry} (hs : Sorted es) {e : Entry} (he : e ∈ es) :
    lookupIn es e.key e.seq = e.result := by
  have hnew : newestEntry es e.key e.seq = some e :=
    (Newest.newest_eq_some_iff hs.uniqueSeqs).2 ⟨he, rfl, le_rfl, fun _ _ _ h => h⟩
  rw [lookupIn, hnew]

section Split

variable {es : List Entry} {as bs : List (List Entry)} {b : List Entry} {k : Bytes}

theorem headKey_le {c : List Entry} (hs : c.Pairwise fun a b => a.key ≤ b.key) {e : Entry}
    (he : e ∈ c) : headKey c ≤ e.key := by
  cases c with
  | nil => simp at he
  | cons x c =>
    rcases List.mem_cons.1 he with rfl | he
    · exact le_rfl
    · exact (List.pairwise_cons.1 hs).1 e he

/-- With the block the index search takes, the lookup in the whole list is the lookup in the
    blocks before it, then in it. -/
theorem lookupIn_split (hs : SortedLe es) (hblocks : blocksOf es = as ++ b :: bs)
    (hbs : ∀ b' ∈ bs, k < headKey b') (s : UInt64) :
    lookupIn es k s = ((as.flatten.find? fun e => e.key = k ∧ e.seq ≤ s).map Entry.result).getD
      (lookupIn b k s) := by
  have hb : b ∈ blocksOf es := by rw [hblocks]; simp
  have hlate : (bs.flatten.find? fun e => e.key = k ∧ e.seq ≤ s) = none := by
    rw [List.find?_eq_none]
    intro e he
    obtain ⟨b', hb', he⟩ := List.mem_flatten.1 he
    have hsb' := (sorted_blocksOf hs).1 b' (by rw [hblocks]; simp [hb'])
    have hlt := lt_of_lt_of_le (hbs b' hb') (headKey_le hsb'.keys he)
    simpa using fun h => absurd h (ne_of_gt hlt)
  rw [lookupIn_eq_find hs, lookupIn_eq_find ((sorted_blocksOf hs).1 b hb)]
  nth_rewrite 1 [← flatten_blocksOf es]
  rw [hblocks, List.flatten_append, List.flatten_cons, List.find?_append, List.find?_append, hlate,
    Option.or_none]
  cases as.flatten.find? fun e => decide (e.key = k ∧ e.seq ≤ s) <;> rfl

/-- A version of the key before that block is in the block just before it, and the block
    begins with the key. -/
theorem straddle_of_mem (hs : SortedLe es) (hblocks : blocksOf es = as ++ b :: bs)
    (hb : headKey b ≤ k) {e : Entry} (he : e ∈ as.flatten) (hk : e.key = k) :
    ∃ as' a, as = as' ++ [a] ∧ e ∈ a ∧ headKey b = k := by
  obtain ⟨-, hord⟩ := sorted_blocksOf hs
  have hne : ∀ c ∈ blocksOf es, c ≠ [] := fun c hc => cutBlocks_ne_nil hc
  have hheads := pairwise_headKey hs
  rw [hblocks] at hord hne hheads
  rcases List.eq_nil_or_concat' as with rfl | ⟨as', a, rfl⟩
  · simp at he
  have hkb : ∀ c ∈ as' ++ [a], e ∈ c → e.key ≤ headKey b := by
    intro c hc hec
    obtain ⟨x, hx, hxk⟩ := headKey_mem (hne b (by simp))
    rw [← hxk]
    exact ((List.pairwise_append.1 hord).2.2 c hc b (by simp) e hec x hx).key_le
  refine ⟨as', a, rfl, ?_, ?_⟩
  · rw [List.flatten_append, List.mem_append] at he
    rcases he with he | he
    · -- two blocks on: the block between starts at the key already, and this one behind it
      obtain ⟨c, hc, hec⟩ := List.mem_flatten.1 he
      obtain ⟨x, hx, hxk⟩ := headKey_mem (hne a (by simp))
      have hca := (List.pairwise_append.1 (List.pairwise_append.1 hord).1).2.2 c hc a (by simp)
      have h1 : e.key ≤ headKey a := hxk ▸ (hca e hec x hx).key_le
      have h2 := (List.pairwise_append.1 hheads).2.2 a (by simp) b (by simp)
      exact absurd (lt_of_le_of_lt h1 (lt_of_lt_of_le h2 hb)) (by rw [hk]; exact lt_irrefl k)
    · simpa using he
  · obtain ⟨c, hc, hec⟩ := List.mem_flatten.1 he
    exact le_antisymm hb (hk ▸ hkb c hc hec)

/-- In two splits of one list, the element at the longer prefix is behind the shorter one. -/
theorem mem_of_split {α : Type} {as bs xs ys : List α} {b c : α}
    (h : as ++ b :: bs = xs ++ c :: ys) (hlt : xs.length < as.length) : b ∈ ys := by
  have h1 : (xs ++ c :: ys)[as.length]? = some b := by
    rw [← h, List.getElem?_append_right le_rfl, Nat.sub_self, List.getElem?_cons_zero]
  rw [List.getElem?_append_right (by omega),
    show as.length - xs.length = (as.length - xs.length - 1) + 1 by omega,
    List.getElem?_cons_succ] at h1
  exact List.mem_of_getElem? h1

theorem findBlockIdx_eq (hs : SortedLe es) (hblocks : blocksOf es = as ++ b :: bs)
    (hb : headKey b ≤ k) (hbs : ∀ b' ∈ bs, k < headKey b') :
    (tableOf es).findBlockIdx k = some as.length := by
  have hmem : b ∈ blocksOf es := by rw [hblocks]; simp
  rcases findBlockIdx_spec hs k with ⟨-, hall⟩ | ⟨xs, c, ys, hsplit, hidx, hc, hys⟩
  · obtain ⟨e, he, hek⟩ := headKey_mem (cutBlocks_ne_nil hmem)
    have := hall e (mem_of_mem_blocksOf hmem he)
    exact absurd (hek ▸ this) (not_lt.2 hb)
  · rw [hblocks] at hsplit
    rcases Nat.lt_trichotomy xs.length as.length with hlt | heq | hgt
    · exact absurd (hys b (mem_of_split hsplit hlt)) (not_lt.2 hb)
    · rw [hidx, heq]
    · exact absurd (hbs c (mem_of_split hsplit.symm hgt)) (not_lt.2 hc)

/-- Where every block can be read and no split matters, `get` answers for the whole list. -/
theorem get_tableOf (hs : SortedLe es) (hfit : BlocksFit es)
    (hmax : (tableFile es).length ≤ maxFileSize) (hagree : SplitsAgree (blocksOf es))
    (k : Bytes) (s : UInt64) : (tableOf es).get k s = .ok (lookupIn es k s) := by
  by_cases hk : ∃ e ∈ es, e.key = k
  · rcases findBlockIdx_spec hs k with ⟨-, hall⟩ | ⟨as, b, bs, hblocks, hidx, hb, hbs⟩
    · obtain ⟨e, he, rfl⟩ := hk
      exact absurd (hall e he) (lt_irrefl _)
    have hread : readBack b = b := if_pos (hfit b (by rw [hblocks]; simp))
    rw [get_tableOf_block hs hmax hk s hblocks hidx, hread, lookupIn_split hs hblocks hbs]
    cases hfind : as.flatten.find? fun e => decide (e.key = k ∧ e.seq ≤ s) with
    | none => rfl
    | some e =>
      have hhit : e.key = k ∧ e.seq ≤ s := by simpa using List.find?_some hfind
      obtain ⟨as', a, rfl, hea, hbk⟩ :=
        straddle_of_mem hs hblocks hb (List.mem_of_find?_eq_some hfind) hhit.1
      have hres := List.isChain_iff_forall_rel_of_append_cons_cons.1 hagree
        (show blocksOf es = as' ++ a :: b :: bs by simp [hblocks]) e hea (hhit.1.trans hbk.symm)
      obtain ⟨c, hc, hce⟩ := Option.map_eq_some_iff.1 hres.symm
      have hck : c.key = k := by rw [← hbk, headKey, hc]; rfl
      have hord := (sorted_blocksOf hs).2
      rw [hblocks, List.append_assoc] at hord
      have hbefore : e.BeforeEq c :=
        (List.pairwise_cons.1 (List.pairwise_append.1 hord).2.1).1 b (by simp) e hea c
          (List.mem_of_mem_head? (by simp [hc]))
      have hseq := hbefore.seq_le (hhit.1.trans hck.symm)
      have hsb := (sorted_blocksOf hs).1 b (by rw [hblocks]; simp)
      have hhead := lookupIn_head hsb hc (le_trans hseq hhit.2)
      rw [← hck, hhead, hce]
      rfl
  · have hmiss : ∀ e ∈ es, e.key ≠ k := fun e he h => hk ⟨e, he, h⟩
    rw [get_tableOf_absent hs hmax hmiss, lookupIn_eq_find hs]
    have : (es.find? fun e => e.key = k ∧ e.seq ≤ s) = none := by
      rw [List.find?_eq_none]
      intro e he
      simpa using fun h => absurd h (hmiss e he)
    rw [this]
    rfl

end Split

/-- At a split, `get` answers with the newest version in the second block. -/
theorem get_tableOf_straddle {es : List Entry} (hs : SortedLe es) (hfit : BlocksFit es)
    (hmax : (tableFile es).length ≤ maxFileSize) {as bs : List (List Entry)} {a b : List Entry}
    (hblocks : blocksOf es = as ++ a :: b :: bs) {e c : Entry} (he : e ∈ a)
    (hc : b.head? = some c) (hk : e.key = c.key) :
    (tableOf es).get e.key e.seq = .ok c.result := by
  have hblocks' : blocksOf es = (as ++ [a]) ++ b :: bs := by simp [hblocks]
  have hbk : headKey b = e.key := by rw [hk, headKey, hc]; rfl
  have hheads := pairwise_headKey hs
  rw [hblocks'] at hheads
  have hbs : ∀ b' ∈ bs, e.key < headKey b' := by
    intro b' hb'
    rw [← hbk]
    exact (List.pairwise_cons.1 (List.pairwise_append.1 hheads).2.1).1 b' hb'
  have hea : e ∈ es := mem_of_mem_blocksOf (by rw [hblocks]; simp) he
  have hread : readBack b = b := if_pos (hfit b (by rw [hblocks]; simp))
  rw [get_tableOf_block hs hmax ⟨e, hea, rfl⟩ e.seq hblocks'
    (findBlockIdx_eq hs hblocks' (le_of_eq hbk) hbs), hread]
  have hord := (sorted_blocksOf hs).2
  rw [hblocks] at hord
  have hbefore : e.BeforeEq c :=
    (List.pairwise_cons.1 (List.pairwise_append.1 hord).2.1).1 b (by simp) e he c
      (List.mem_of_mem_head? (by simp [hc]))
  have hsb := (sorted_blocksOf hs).1 b (by rw [hblocks]; simp)
  have hhead := lookupIn_head hsb hc (hbefore.seq_le hk)
  rw [hk, hhead]

/-! ## The answer for the whole list -/

/-- The first key of a block that cannot be read is not found. -/
theorem blocksFit_of_get {es : List Entry} (hs : Sorted es)
    (hmax : (tableFile es).length ≤ maxFileSize)
    (h : ∀ k s, (tableOf es).get k s = .ok (lookupIn es k s)) : BlocksFit es := by
  intro b hb
  by_contra hlong
  obtain ⟨as, bs, hblocks⟩ := List.append_of_mem hb
  obtain ⟨c, cs, rfl⟩ := List.exists_cons_of_ne_nil (cutBlocks_ne_nil hb)
  have hc : c ∈ es := mem_of_mem_blocksOf hb List.mem_cons_self
  have hheads := pairwise_headKey hs.le
  rw [hblocks] at hheads
  have hidx := findBlockIdx_eq hs.le hblocks (k := c.key) (le_refl (headKey (c :: cs)))
    fun b' hb' => (List.pairwise_cons.1 (List.pairwise_append.1 hheads).2.1).1 b' hb'
  have hget := get_tableOf_block hs.le hmax ⟨c, hc, rfl⟩ c.seq hblocks hidx
  rw [h, lookupIn_self hs hc, readBack, if_neg hlong] at hget
  have hres : c.result = .notFound := Except.ok.inj hget
  unfold Entry.result at hres
  split at hres <;> simp at hres

/-- **When `get` answers for the whole list.** On the table made of a sorted list, `get`
    reports for every key and snapshot what the newest visible entry of the whole list says
    exactly when the index, the filter and every block come with one `pread` each and no split
    of a key's versions over two blocks hides a different answer. -/
theorem get_writeTable_iff (es : List Entry) (hs : Sorted es) (file : Bytes)
    (hw : writeTable es = some file) :
    (∃ t, SSTable.open file = .ok t ∧ ∀ k s, t.get k s = .ok (lookupIn es k s)) ↔
      TableFits es ∧ SplitsAgree (blocksOf es) := by
  rw [writeTable_eq] at hw
  split at hw
  · rename_i hmax
    obtain rfl := Option.some.inj hw
    constructor
    · rintro ⟨t, hopen, hget⟩
      obtain ⟨hopens, rfl⟩ := (open_tableFile_iff hmax).1 hopen
      have hfit := blocksFit_of_get hs hmax hget
      refine ⟨⟨hopens, hmax, hfit⟩, List.isChain_iff_forall_rel_of_append_cons_cons.2 ?_⟩
      intro a b as bs hblocks e he hk
      obtain ⟨c, cs, rfl⟩ := List.exists_cons_of_ne_nil
        (cutBlocks_ne_nil (show b ∈ blocksOf es by rw [hblocks]; simp))
      have hea : e ∈ es := mem_of_mem_blocksOf (by rw [hblocks]; simp) he
      have h1 := get_tableOf_straddle hs.le hfit hmax hblocks he rfl hk
      rw [hget, lookupIn_self hs hea] at h1
      simpa using Except.ok.inj h1
    · rintro ⟨hfit, hagree⟩
      exact ⟨tableOf es, open_tableFile hfit.toOpens hmax, get_tableOf hs.le hfit.blocks hmax hagree⟩
  · simp at hw

/-- The theorem at two versions of one key: the older is read at its own number. -/
theorem get_writeTable_iff_two :
    ∃ file t, writeTable [⟨[97], [2], false, 2⟩, ⟨[97], [1], false, 1⟩] = some file ∧
      SSTable.open file = .ok t ∧ t.get [97] 1 = .ok (.found [1]) := by
  have hw : writeTable [⟨[97], [2], false, 2⟩, ⟨[97], [1], false, 1⟩] =
      some (tableFile [⟨[97], [2], false, 2⟩, ⟨[97], [1], false, 1⟩]) := by
    rw [writeTable_eq, if_pos (by decide +kernel)]
  obtain ⟨t, hopen, hget⟩ := (get_writeTable_iff _ (by decide) _ hw).2
    ⟨by decide +kernel, by unfold SplitsAgree; decide +kernel⟩
  exact ⟨_, t, hw, hopen, by rw [hget]; decide⟩

/-- Two versions of `b` behind an entry of `a` that fills most of a block. -/
def splitEntries : List Entry :=
  [⟨[97], List.replicate 4070 0, false, 1⟩, ⟨[98], [2], false, 3⟩, ⟨[98], [1], false, 2⟩]

theorem blocksOf_splitEntries : blocksOf splitEntries =
    [[⟨[97], List.replicate 4070 0, false, 1⟩, ⟨[98], [2], false, 3⟩],
      [⟨[98], [1], false, 2⟩]] := by
  decide +kernel

theorem tableFits_splitEntries : TableFits splitEntries := by decide +kernel

/-- The cut falls between the two versions of `b`, and `get` returns the overwritten one. -/
theorem get_splitEntries_stale :
    Sorted splitEntries ∧ ∃ file t, writeTable splitEntries = some file ∧
      SSTable.open file = .ok t ∧ t.get [98] 3 = .ok (.found [1]) ∧
      lookupIn splitEntries [98] 3 = .found [2] := by
  have hs : Sorted splitEntries := by decide
  have hfit := tableFits_splitEntries
  refine ⟨hs, tableFile splitEntries, tableOf splitEntries, ?_,
    open_tableFile hfit.toOpens hfit.file, ?_, ?_⟩
  · rw [writeTable_eq, if_pos hfit.file]
  · have hsplit : blocksOf splitEntries = [] ++
        [⟨[97], List.replicate 4070 0, false, 1⟩, ⟨[98], [2], false, 3⟩] ::
        [⟨[98], [1], false, 2⟩] :: [] := blocksOf_splitEntries
    exact get_tableOf_straddle hs.le hfit.blocks hfit.file hsplit (e := ⟨[98], [2], false, 3⟩)
      (List.mem_cons_of_mem _ (List.mem_cons_self ..)) rfl rfl
  · decide

end Keystone
