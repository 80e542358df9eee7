/-
  What a table file looks like, and that `SSTable::open` reads it back.

  * `cutBlocks`: where `SSTableWriter::add` ends its blocks.
  * `writeTable_eq`: the file is the blocks, the index, the bloom filter and the footer.
  * `open_tableFile_iff`: opening it gives back exactly that index, filter and footer, when the
    index and the filter come with one `pread` each, and fails otherwise.
-/
import Keystone.SSTable

namespace Keystone

open Frame SSTableWriter

/-- The first key of a list of entries, as a block's first key is remembered. -/
def headKey (es : List Entry) : Bytes := (es.head?.map Entry.key).getD []

/-- The last key of a list of entries. -/
def lastKey (es : List Entry) : Bytes := (es.getLast?.map Entry.key).getD []

/-- `max_seq_` after adding `es`. -/
def maxSeqOf (es : List Entry) : UInt64 := es.foldl (fun m e => max m e.seq) 0

/-- The payload of a block. -/
def encodeEntries (es : List Entry) : Bytes := es.flatMap encodeEntry

/-- A block as it stands in the file: payload and CRC. -/
def blockBytes (es : List Entry) : Bytes := encodeEntries es ++ putU32Le (crc32 (encodeEntries es))

/-- `add` ends the block `cur` before the entry `e`. -/
def CutsBefore (cur : List Entry) (e : Entry) : Prop :=
  cur ≠ [] ∧ kBlockTargetSize ≤ (encodeEntries cur).length ∧ e.key ≠ headKey cur

instance (cur : List Entry) (e : Entry) : Decidable (CutsBefore cur e) :=
  inferInstanceAs (Decidable (_ ∧ _))

/-- The blocks made of `es` when `cur` is in the buffer. -/
def cutBlocks : List Entry → List Entry → List (List Entry)
  | [], [] => []
  | c :: cur, [] => [c :: cur]
  | cur, e :: es => if CutsBefore cur e then cur :: cutBlocks [e] es else cutBlocks (cur ++ [e]) es

/-- The blocks of the table made of `es`. -/
def blocksOf (es : List Entry) : List (List Entry) := cutBlocks [] es

/-- The index of consecutive blocks from offset `off` on. -/
def indexOf : Nat → List (List Entry) → List IndexEntry
  | _, [] => []
  | off, b :: bs =>
    ⟨headKey b, UInt64.ofNat off, UInt64.ofNat (blockBytes b).length⟩ ::
      indexOf (off + (blockBytes b).length) bs

/-! ## The writer's state -/

/-- The state of a writer that has written the blocks `done` and buffers `cur`. -/
def stateOf (done : List (List Entry)) (cur : List Entry) : SSTableWriter where
  file := done.flatMap blockBytes
  blockBuf := encodeEntries cur
  blockFirstKey := headKey cur
  currentOffset := (done.flatMap blockBytes).length
  index := indexOf 0 done
  entryCount := (done.flatten ++ cur).length
  maxSeq := maxSeqOf (done.flatten ++ cur)
  smallestKey := headKey (done.flatten ++ cur)
  largestKey := lastKey (done.flatten ++ cur)
  keys := (done.flatten ++ cur).map Entry.key

theorem encodeEntry_ne_nil (e : Entry) : encodeEntry e ≠ [] := by simp [encodeEntry]

theorem encodeEntries_eq_nil {es : List Entry} : encodeEntries es = [] ↔ es = [] := by
  cases es with
  | nil => simp [encodeEntries]
  | cons e es => simp [encodeEntries, encodeEntry_ne_nil]

theorem encodeEntries_append (as bs : List Entry) :
    encodeEntries (as ++ bs) = encodeEntries as ++ encodeEntries bs :=
  List.flatMap_append

theorem encodeEntries_singleton (e : Entry) : encodeEntries [e] = encodeEntry e := by
  simp [encodeEntries]

theorem indexOf_append (off : Nat) (as bs : List (List Entry)) :
    indexOf off (as ++ bs) = indexOf off as ++ indexOf (off + (as.flatMap blockBytes).length) bs := by
  induction as generalizing off with
  | nil => simp [indexOf]
  | cons a as ih =>
    simp only [List.cons_append, indexOf, ih, List.flatMap_cons, List.length_append, Nat.add_assoc]

theorem flushBlock_stateOf (done : List (List Entry)) {cur : List Entry} (h : cur ≠ []) :
    (stateOf done cur).flushBlock = stateOf (done ++ [cur]) [] := by
  have hb : (encodeEntries cur).isEmpty = false := by
    rw [List.isEmpty_eq_false_iff]
    exact fun h0 => h (encodeEntries_eq_nil.1 h0)
  unfold flushBlock
  simp only [stateOf, hb]
  simp [indexOf_append, indexOf, blockBytes, headKey, encodeEntries]

theorem flushBlock_stateOf_nil (done : List (List Entry)) :
    (stateOf done []).flushBlock = stateOf done [] := rfl

theorem maxSeqOf_append_singleton (es : List Entry) (e : Entry) :
    maxSeqOf (es ++ [e]) = if e.seq > maxSeqOf es then e.seq else maxSeqOf es := by
  rw [maxSeqOf, List.foldl_append, List.foldl_cons, List.foldl_nil, ← maxSeqOf, max_def]
  by_cases h : e.seq > maxSeqOf es
  · rw [if_pos (le_of_lt h), if_pos h]
  · rw [if_neg h]
    split
    · exact le_antisymm (not_lt.1 h) (by assumption)
    · rfl

theorem headKey_append_singleton (es : List Entry) (e : Entry) :
    headKey (es ++ [e]) = if es.length = 0 then e.key else headKey es := by
  cases es <;> simp [headKey]

theorem lastKey_append_singleton (es : List Entry) (e : Entry) :
    lastKey (es ++ [e]) = e.key := by
  simp [lastKey]

theorem append_stateOf (done : List (List Entry)) (cur : List Entry) (e : Entry) :
    (stateOf done cur).append e = stateOf done (cur ++ [e]) := by
  have hemp : (encodeEntries cur).isEmpty = true ↔ cur.length = 0 := by
    rw [List.isEmpty_iff, encodeEntries_eq_nil, List.length_eq_zero_iff]
  unfold append
  simp only [stateOf, hemp, ← List.append_assoc, maxSeqOf_append_singleton,
    headKey_append_singleton, lastKey_append_singleton, List.length_append, List.map_append,
    encodeEntries_append, encodeEntries_singleton]
  rfl

theorem add_stateOf (done : List (List Entry)) (cur : List Entry) (e : Entry) :
    (stateOf done cur).add e =
      if CutsBefore cur e then stateOf (done ++ [cur]) [e] else stateOf done (cur ++ [e]) := by
  have hiff : (¬ (stateOf done cur).blockBuf.isEmpty = true ∧
      (stateOf done cur).blockBuf.length ≥ kBlockTargetSize ∧
      e.key ≠ (stateOf done cur).blockFirstKey) ↔ CutsBefore cur e := by
    rw [List.isEmpty_iff]
    exact and_congr (not_congr encodeEntries_eq_nil) Iff.rfl
  unfold add
  simp only [hiff]
  by_cases h : CutsBefore cur e
  · rw [if_pos h, if_pos h, flushBlock_stateOf done h.1, append_stateOf]
    rfl
  · rw [if_neg h, if_neg h, append_stateOf]

/-- Adding a list and flushing the last block writes exactly the blocks of `cutBlocks`. -/
theorem addAll_stateOf (done : List (List Entry)) (cur es : List Entry) :
    ((stateOf done cur).addAll es).flushBlock = stateOf (done ++ cutBlocks cur es) [] := by
  induction es generalizing done cur with
  | nil =>
    cases cur with
    | nil => simp [addAll, cutBlocks, flushBlock_stateOf_nil]
    | cons c cur => exact flushBlock_stateOf done (by simp)
  | cons e es ih =>
    rw [addAll, List.foldl_cons, ← addAll]
    by_cases h : CutsBefore cur e
    · rw [add_stateOf, if_pos h, ih, cutBlocks, if_pos h, List.append_assoc,
        List.singleton_append]
    · rw [add_stateOf, if_neg h, ih, cutBlocks, if_neg h]

theorem flatten_cutBlocks (cur es : List Entry) : (cutBlocks cur es).flatten = cur ++ es := by
  induction es generalizing cur with
  | nil => cases cur <;> simp [cutBlocks]
  | cons e es ih =>
    rw [cutBlocks]
    split
    · simp [ih]
    · simp [ih]

theorem flatten_blocksOf (es : List Entry) : (blocksOf es).flatten = es := by
  rw [blocksOf, flatten_cutBlocks, List.nil_append]

theorem cutBlocks_ne_nil {cur es b : List Entry} (h : b ∈ cutBlocks cur es) : b ≠ [] := by
  induction es generalizing cur with
  | nil =>
    cases cur with
    | nil => simp [cutBlocks] at h
    | cons c cur =>
      rw [cutBlocks, List.mem_singleton] at h
      simp [h]
  | cons e es ih =>
    rw [cutBlocks] at h
    split at h
    · rename_i hc
      rcases List.mem_cons.1 h with rfl | h
      · exact hc.1
      · exact ih h
    · exact ih h

/-! ## The file -/

/-- The filter `finish` builds. -/
def bloomOf (es : List Entry) : Bloom := (Bloom.new es.length 10).addAll (es.map Entry.key)

def blockPart (es : List Entry) : Bytes := (blocksOf es).flatMap blockBytes

def indexPart (es : List Entry) : Bytes := (indexOf 0 (blocksOf es)).flatMap encodeIndexEntry

def footerOf (es : List Entry) : Footer :=
  ⟨UInt64.ofNat (blockPart es).length,
    UInt64.ofNat ((blockPart es).length + (indexPart es).length), UInt64.ofNat es.length,
    maxSeqOf es, kFormatVersion, kMagic⟩

/-- The bytes of the table made of `es`. -/
def tableFile (es : List Entry) : Bytes :=
  blockPart es ++ (indexPart es ++ ((bloomOf es).serialize ++ encodeFooter (footerOf es)))

theorem encodeIndexEntry_length (ie : IndexEntry) :
    (encodeIndexEntry ie).length = 4 + ie.firstKey.length + 16 := by
  simp [encodeIndexEntry]
  omega

theorem encodeFooter_length (f : Footer) : (encodeFooter f).length = kFooterSize := by
  simp [encodeFooter, kFooterSize]

theorem addAll_new (es : List Entry) :
    (SSTableWriter.new.addAll es).flushBlock = stateOf (blocksOf es) [] :=
  addAll_stateOf [] [] es

theorem writeTable_eq (es : List Entry) :
    writeTable es = if (tableFile es).length ≤ maxFileSize then some (tableFile es) else none := by
  have hidx : ((indexOf 0 (blocksOf es)).map fun ie => 4 + ie.firstKey.length + 16).sum =
      (indexPart es).length := by
    simp only [indexPart, List.length_flatMap, encodeIndexEntry_length]
  unfold writeTable finish
  simp only [addAll_new]
  simp only [stateOf, List.append_nil, flatten_blocksOf, List.length_map, hidx]
  rfl

/-- The table read back from that file. Without entries the bloom offset is zero, which
    `open` takes for a file without a filter. -/
def tableOf (es : List Entry) : SSTable where
  file := tableFile es
  footer := footerOf es
  index := indexOf 0 (blocksOf es)
  bloom := if es = [] then none else some (bloomOf es)

theorem tableFile_length_eq (es : List Entry) :
    (tableFile es).length = (blockPart es).length + (indexPart es).length +
      (bloomOf es).serialize.length + kFooterSize := by
  simp only [tableFile, List.length_append, encodeFooter_length]
  omega

/-! ## Opening the file -/

/-- The lengths `add` casts to `uint32_t` are kept by the cast. -/
def Entry.Fits (e : Entry) : Prop :=
  e.key.length < 2 ^ 32 ∧ (e.tombstone = false → e.value.length < 2 ^ 32)

instance (e : Entry) : Decidable e.Fits := inferInstanceAs (Decidable (_ ∧ _))

/-- The block and its CRC come with one `pread`. -/
def BlockFits (b : List Entry) : Prop := (encodeEntries b).length + 4 ≤ maxTransfer

instance (b : List Entry) : Decidable (BlockFits b) := inferInstanceAs (Decidable (_ ≤ _))

/-- So does every block of the table made of `es`. -/
def BlocksFit (es : List Entry) : Prop := ∀ b ∈ blocksOf es, BlockFits b

instance (es : List Entry) : Decidable (BlocksFit es) :=
  inferInstanceAs (Decidable (∀ b ∈ blocksOf es, BlockFits b))

/-- So do its index and its filter. -/
structure Opens (es : List Entry) : Prop where
  index : (indexPart es).length ≤ maxTransfer
  bloom : (bloomOf es).serialize.length ≤ maxTransfer

instance (es : List Entry) : Decidable (Opens es) :=
  decidable_of_iff ((indexPart es).length ≤ maxTransfer ∧
    (bloomOf es).serialize.length ≤ maxTransfer) ⟨fun h => ⟨h.1, h.2⟩, fun h => ⟨h.index, h.bloom⟩⟩

/-- The table made of `es` can be written, opened and read. -/
structure TableFits (es : List Entry) : Prop extends Opens es where
  file : (tableFile es).length ≤ maxFileSize
  blocks : BlocksFit es

instance (es : List Entry) : Decidable (TableFits es) :=
  decidable_of_iff (Opens es ∧ (tableFile es).length ≤ maxFileSize ∧ BlocksFit es)
    ⟨fun h => ⟨h.1, h.2.1, h.2.2⟩, fun h => ⟨h.toOpens, h.file, h.blocks⟩⟩

theorem blockBytes_length (b : List Entry) :
    (blockBytes b).length = (encodeEntries b).length + 4 := by
  simp [blockBytes]

theorem encodeEntry_length (e : Entry) : (encodeEntry e).length =
    17 + e.key.length + (if e.tombstone then [] else e.value).length := by
  simp [encodeEntry]
  omega

theorem encodeEntry_length_le {b : List Entry} {e : Entry} (he : e ∈ b) :
    (encodeEntry e).length ≤ (encodeEntries b).length := by
  rw [encodeEntries, List.length_flatMap]
  exact List.le_sum_of_mem (List.mem_map_of_mem he)

/-- No length of an entry in a block that can be read is cut by its cast. -/
theorem BlockFits.fits {b : List Entry} (h : BlockFits b) {e : Entry} (he : e ∈ b) : e.Fits := by
  have hle := encodeEntry_length_le he
  have hlen := encodeEntry_length e
  have hmax : maxTransfer = 2147479552 := rfl
  unfold BlockFits at h
  refine ⟨by omega, fun ht => ?_⟩
  rw [ht] at hlen
  simp only [Bool.false_eq_true, if_false] at hlen
  omega

/-- A `pread` from the middle of a file. -/
theorem pread_middle_eq {file pre mid post : Bytes} (h : file = pre ++ (mid ++ post))
    (hmax : file.length ≤ maxFileSize) :
    SSTable.pread file (UInt64.ofNat mid.length) (UInt64.ofNat pre.length) =
      if mid.length ≤ maxTransfer then some mid else none := by
  have hlen : file.length = pre.length + (mid.length + post.length) := by simp [h]
  have hm : maxFileSize < 2 ^ 64 := by decide
  have hp : (UInt64.ofNat pre.length).toNat = pre.length := toNat_u64_of_lt (by omega)
  have hl : (UInt64.ofNat mid.length).toNat = mid.length := toNat_u64_of_lt (by omega)
  unfold SSTable.pread
  by_cases hmid : mid.length ≤ maxTransfer
  · rw [hp, hl, if_pos ⟨by omega, Or.inr ⟨hmid, by omega⟩⟩, if_pos hmid, h, List.drop_left,
      List.take_left]
  · rw [if_neg hmid, if_neg]
    rintro ⟨-, h0 | hle⟩
    · rw [h0] at hl
      exact hmid (by rw [← hl]; exact Nat.zero_le _)
    · exact hmid (hl ▸ hle.1)

theorem pread_middle {file pre mid post : Bytes} (h : file = pre ++ (mid ++ post))
    (hmax : file.length ≤ maxFileSize) (hmid : mid.length ≤ maxTransfer) :
    SSTable.pread file (UInt64.ofNat mid.length) (UInt64.ofNat pre.length) = some mid := by
  rw [pread_middle_eq h hmax, if_pos hmid]

theorem parseFooter_encodeFooter (f : Footer) : SSTable.parseFooter (encodeFooter f) = f := by
  have h8 : (encodeFooter f).drop 8 = putU64Le f.bloomOffset ++ (putU64Le f.entryCount ++
      (putU64Le f.maxSeq ++ (putU32Le f.formatVersion ++ putU32Le f.magic))) :=
    List.drop_left' (putU64Le_length _)
  have h16 : (encodeFooter f).drop 16 = putU64Le f.entryCount ++
      (putU64Le f.maxSeq ++ (putU32Le f.formatVersion ++ putU32Le f.magic)) := by
    rw [show 16 = 8 + 8 from rfl, ← List.drop_drop, h8, List.drop_left' (putU64Le_length _)]
  have h24 : (encodeFooter f).drop 24 =
      putU64Le f.maxSeq ++ (putU32Le f.formatVersion ++ putU32Le f.magic) := by
    rw [show 24 = 16 + 8 from rfl, ← List.drop_drop, h16, List.drop_left' (putU64Le_length _)]
  have h32 : (encodeFooter f).drop 32 = putU32Le f.formatVersion ++ putU32Le f.magic := by
    rw [show 32 = 24 + 8 from rfl, ← List.drop_drop, h24, List.drop_left' (putU64Le_length _)]
  have h36 : (encodeFooter f).drop 36 = putU32Le f.magic := by
    rw [show 36 = 32 + 4 from rfl, ← List.drop_drop, h32, List.drop_left' (putU32Le_length _)]
  have h0 : getU64Le (encodeFooter f) = f.indexOffset := getU64Le_putU64Le _ _
  unfold SSTable.parseFooter
  simp only [h0, h8, h16, h24, h32, h36, getU64Le_putU64Le, getU32Le_putU32Le, getU32Le_putU32Le']

theorem takesBack_readIndexEntry {ie : IndexEntry} (h : ie.firstKey.length < 2 ^ 32) :
    TakesBack SSTable.readIndexEntry encodeIndexEntry ie := by
  intro rest
  have e : encodeIndexEntry ie ++ rest = putU32Le (UInt32.ofNat ie.firstKey.length) ++
      (ie.firstKey ++ ((putU64Le ie.offset ++ putU64Le ie.length) ++ rest)) := by
    simp [encodeIndexEntry]
  have hd : (putU64Le ie.offset ++ putU64Le ie.length).drop 8 = putU64Le ie.length :=
    List.drop_left' (putU64Le_length _)
  unfold SSTable.readIndexEntry
  rw [e, readFully_append (putU32Le_length _)]
  simp only [Option.bind_eq_bind, Option.bind_some, getU32Le_putU32Le', toNat_u32_of_lt h]
  rw [readFully_append rfl]
  simp only [Option.bind_some]
  rw [readFully_append (by simp)]
  simp only [Option.bind_some, getU64Le_putU64Le, hd, getU64Le_putU64Le']

theorem consumes_readIndexEntry : Consumes SSTable.readIndexEntry := by
  intro bs a rest h
  unfold SSTable.readIndexEntry at h
  simp only [Option.bind_eq_bind, Option.bind_eq_some_iff, Prod.exists, Option.some.injEq,
    Prod.mk.injEq] at h
  obtain ⟨klen, b1, h1, key, b2, h2, offlen, b3, h3, -, rfl⟩ := h
  have e1 := readFully_eq_some h1
  have e2 := readFully_eq_some h2
  have e3 := readFully_eq_some h3
  rw [e1.1, e2.1, e3.1]
  simp only [List.length_append]
  omega

/-- The index holds the first key of every block. -/
theorem firstKey_length_le {es : List Entry} {ie : IndexEntry} (h : ie ∈ indexOf 0 (blocksOf es)) :
    ie.firstKey.length ≤ (indexPart es).length := by
  have hle : (encodeIndexEntry ie).length ≤ (indexPart es).length := by
    rw [indexPart, List.length_flatMap]
    exact List.le_sum_of_mem (List.mem_map_of_mem h)
  rw [encodeIndexEntry_length] at hle
  omega

theorem mem_of_mem_blocksOf {es b : List Entry} (hb : b ∈ blocksOf es) {e : Entry} (he : e ∈ b) :
    e ∈ es := by
  rw [← flatten_blocksOf es]
  exact List.mem_flatten.2 ⟨b, hb, he⟩

theorem records_indexPart {es : List Entry} (h : Opens es) :
    records SSTable.readIndexEntry (indexPart es) = indexOf 0 (blocksOf es) := by
  refine records_flatMap consumes_readIndexEntry (fun ie hie => takesBack_readIndexEntry ?_) rfl
  have h1 := firstKey_length_le hie
  have h2 := h.index
  have hmax : maxTransfer = 2147479552 := rfl
  omega

theorem blocksOf_eq_nil {es : List Entry} : blocksOf es = [] ↔ es = [] := by
  constructor
  · intro h
    rw [← flatten_blocksOf es, h, List.flatten_nil]
  · rintro rfl
    rfl

theorem blockPart_length_pos {es : List Entry} (h : es ≠ []) : 0 < (blockPart es).length := by
  obtain ⟨b, bs, hb⟩ := List.exists_cons_of_ne_nil (mt blocksOf_eq_nil.1 h)
  simp [blockPart, hb, blockBytes]

theorem ofNat_add_sub_left (a b : Nat) :
    UInt64.ofNat (a + b) - UInt64.ofNat a = UInt64.ofNat b := by
  rw [UInt64.ofNat_add, UInt64.add_comm, UInt64.add_sub_cancel]

theorem allocate_of_le {n : Nat} (h : n ≤ maxFileSize) :
    SSTable.allocate (UInt64.ofNat n) = .ok () := by
  have hm : maxFileSize < 2 ^ 64 := by decide
  unfold SSTable.allocate
  rw [toNat_u64_of_lt (by omega), if_neg (by omega)]

theorem ofNat_u64_ne_zero {n : Nat} (h0 : 0 < n) (h : n ≤ maxFileSize) :
    UInt64.ofNat n ≠ 0 := by
  have hm : maxFileSize < 2 ^ 64 := by decide
  intro h1
  have h2 := congrArg UInt64.toNat h1
  rw [toNat_u64_of_lt (by omega)] at h2
  exact absurd h2 (by simpa using Nat.pos_iff_ne_zero.1 h0)

/-- The footer `open` parses. -/
theorem parseFooter_tableFile (es : List Entry) :
    SSTable.parseFooter ((tableFile es).drop ((tableFile es).length - kFooterSize)) =
      footerOf es := by
  have hd : (tableFile es).drop ((tableFile es).length - kFooterSize) =
      encodeFooter (footerOf es) := by
    have e : tableFile es =
        (blockPart es ++ indexPart es ++ (bloomOf es).serialize) ++ encodeFooter (footerOf es) := by
      simp [tableFile]
    rw [e]
    refine List.drop_left' ?_
    simp only [List.length_append, encodeFooter_length]
    omega
  rw [hd, parseFooter_encodeFooter]

theorem loadBloom_tableFile {es : List Entry} (hes : es ≠ [])
    (hmax : (tableFile es).length ≤ maxFileSize) :
    SSTable.loadBloom (tableFile es) (footerOf es) =
      if (bloomOf es).serialize.length ≤ maxTransfer then .ok (some (bloomOf es))
      else .error (.thrown "SSTable::open: cannot read bloom") := by
  have hlen := tableFile_length_eq es
  have hpos := blockPart_length_pos hes
  have hoff : (footerOf es).bloomOffset ≠ 0 := ofNat_u64_ne_zero (by omega) (by omega)
  have hbl : UInt64.ofNat (tableFile es).length - UInt64.ofNat kFooterSize -
      (footerOf es).bloomOffset = UInt64.ofNat (bloomOf es).serialize.length := by
    have e : (tableFile es).length = kFooterSize + (((blockPart es).length +
        (indexPart es).length) + (bloomOf es).serialize.length) := by omega
    rw [e, ofNat_add_sub_left]
    exact ofNat_add_sub_left _ _
  have hread : SSTable.pread (tableFile es) (UInt64.ofNat (bloomOf es).serialize.length)
      (footerOf es).bloomOffset =
        if (bloomOf es).serialize.length ≤ maxTransfer then some (bloomOf es).serialize
        else none := by
    have e : tableFile es = (blockPart es ++ indexPart es) ++
        ((bloomOf es).serialize ++ encodeFooter (footerOf es)) := by simp [tableFile]
    have := pread_middle_eq e hmax
    rwa [List.length_append] at this
  have hwf : (bloomOf es).Wf := Bloom.wf_addAll (Bloom.wf_new _ _) _
  unfold SSTable.loadBloom
  rw [if_neg hoff, hbl]
  simp only [allocate_of_le (show (bloomOf es).serialize.length ≤ maxFileSize by omega), hread]
  by_cases hb : (bloomOf es).serialize.length ≤ maxTransfer
  · simp only [if_pos hb, Bloom.load_serialize hwf]
    rfl
  · simp only [if_neg hb]
    rfl

theorem readIndex_tableFile {es : List Entry} (hmax : (tableFile es).length ≤ maxFileSize) :
    (if UInt64.ofNat (indexPart es).length = 0 then some [] else
      SSTable.pread (tableFile es) (UInt64.ofNat (indexPart es).length)
        (footerOf es).indexOffset) =
      if (indexPart es).length ≤ maxTransfer then some (indexPart es) else none := by
  have hlen := tableFile_length_eq es
  by_cases h0 : (indexPart es).length = 0
  · rw [h0, if_pos (show UInt64.ofNat 0 = 0 from rfl), if_pos (Nat.zero_le _),
      List.length_eq_zero_iff.1 h0]
  · rw [if_neg (ofNat_u64_ne_zero (by omega) (by omega))]
    exact pread_middle_eq rfl hmax

/-- **`SSTable::open` on what `finish` wrote** reads it back, or cannot read the index or the
    filter. -/
theorem open_tableFile_iff {es : List Entry} (hmax : (tableFile es).length ≤ maxFileSize)
    {t : SSTable} : SSTable.open (tableFile es) = .ok t ↔ Opens es ∧ t = tableOf es := by
  by_cases hes : es = []
  · subst hes
    have hopen : SSTable.open (tableFile []) = .ok (tableOf []) := by decide +kernel
    rw [hopen]
    exact ⟨fun h => ⟨by decide +kernel, (Except.ok.inj h).symm⟩, fun h => congrArg _ h.2.symm⟩
  have hlen := tableFile_length_eq es
  have hpos := blockPart_length_pos hes
  have hoff : (footerOf es).bloomOffset ≠ 0 := ofNat_u64_ne_zero (by omega) (by omega)
  have hil : (footerOf es).bloomOffset - (footerOf es).indexOffset =
      UInt64.ofNat (indexPart es).length := ofNat_add_sub_left _ _
  unfold SSTable.open
  rw [if_neg (by omega)]
  simp only [parseFooter_tableFile]
  rw [if_neg (by simp [footerOf])]
  simp only [if_pos hoff, hil, readIndex_tableFile hmax, loadBloom_tableFile hes hmax,
    allocate_of_le (show (indexPart es).length ≤ maxFileSize by omega)]
  by_cases hi : (indexPart es).length ≤ maxTransfer
  · by_cases hb : (bloomOf es).serialize.length ≤ maxTransfer
    · rw [if_pos hi, if_pos hb]
      have htab : tableOf es = ⟨tableFile es, footerOf es,
          records SSTable.readIndexEntry (indexPart es), some (bloomOf es)⟩ := by
        rw [records_indexPart ⟨hi, hb⟩, tableOf, if_neg hes]
      rw [htab]
      exact ⟨fun h => ⟨⟨hi, hb⟩, (Except.ok.inj h).symm⟩, fun h => congrArg Except.ok h.2.symm⟩
    · rw [if_pos hi, if_neg hb]
      exact ⟨nofun, fun h => absurd h.1.bloom hb⟩
  · rw [if_neg hi]
    exact ⟨nofun, fun h => absurd h.1.index hi⟩

theorem open_tableFile {es : List Entry} (h : Opens es)
    (hmax : (tableFile es).length ≤ maxFileSize) :
    SSTable.open (tableFile es) = .ok (tableOf es) :=
  (open_tableFile_iff hmax).2 ⟨h, rfl⟩

end Keystone
