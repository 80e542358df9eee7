/-
  Iteration over a table: `SSTable::Iterator` on a file made by `SSTableWriter`.

  An iterator takes a block that does not come with one `pread` for the end of the table.

  * `entries_readable`: from `begin()` the iterator passes the entries of the blocks in front of
    the first such block, in order; `entries_tableOf` is the case without one.
  * `open_writeTable_iff`: writing any list and opening the file gives the list back, in blocks
    that fill the data region, exactly when index, filter and blocks come with one `pread` each.
  * `entriesFrom_tableOf`: from `seek(target)` it passes the entries with key at least
    `target` of the block the index search takes and of the readable ones behind it.
  * `entriesFrom_sorted`: these are all such entries of the list when no block boundary
    separates two versions of `target`.
  * `seek_writeTable_iff`: exactly when every seek gives the list from the target on.
-/
import Keystone.SSTableGet

namespace Keystone

open Frame SSTableWriter

theorem bind_eq_ok {α β ε : Type} {x : Except ε α} {f : α → Except ε β} {b : β}
    (h : x >>= f = .ok b) : ∃ a, x = .ok a ∧ f a = .ok b := by
  cases x with
  | error e => exact nomatch h
  | ok a => exact ⟨a, rfl, h⟩

/-- An entry as it is read back: a tombstone has no value. -/
def Entry.stored (e : Entry) : Entry := { e with value := e.storedValue }

/-- The blocks an iterator goes through: those in front of the first one that does not come with
    one `pread`. -/
def readable (bs : List (List Entry)) : List (List Entry) := bs.takeWhile fun b => BlockFits b

theorem readable_cons (b : List Entry) (bs : List (List Entry)) :
    readable (b :: bs) = if BlockFits b then b :: readable bs else [] := by
  unfold readable
  rw [List.takeWhile_cons]
  by_cases hb : BlockFits b
  · rw [if_pos hb, if_pos (by simpa using hb)]
  · rw [if_neg hb, if_neg (by simpa using hb)]

theorem readable_eq_self {bs : List (List Entry)} (h : ∀ b ∈ bs, BlockFits b) :
    readable bs = bs :=
  List.takeWhile_eq_self_iff.2 fun b hb => decide_eq_true (h b hb)

theorem readable_isPrefix (bs : List (List Entry)) : readable bs <+: bs := List.takeWhile_prefix _

/-- A valid iterator in a block of which the entries `r` are still unread, with the blocks
    `bs` behind it. -/
structure Stands (es : List Entry) (it : SSTable.Iterator) (r : List Entry)
    (bs : List (List Entry)) : Prop where
  valid : it.valid = true
  rest : it.rest = encodeEntries r
  block : ∃ as b, blocksOf es = as ++ b :: bs ∧ it.blockIdx = as.length ∧ BlockFits b ∧ r <:+ b

section Iterate

variable {es : List Entry} {it : SSTable.Iterator} {r : List Entry} {bs : List (List Entry)}

theorem encodeEntry_length_ge (e : Entry) : 17 ≤ (encodeEntry e).length := by
  rw [encodeEntry_eq, List.length_append, entryHeader_length]
  omega

theorem version_tableOf (es : List Entry) :
    (tableOf es).footer.formatVersion = kFormatVersion := rfl

theorem loadBlock_tableOf (it : SSTable.Iterator) (hmax : (tableFile es).length ≤ maxFileSize)
    {as bs : List (List Entry)} {b : List Entry} (h : blocksOf es = as ++ b :: bs)
    (hidx : it.blockIdx = as.length) :
    (tableOf es).loadBlock it =
      .ok (if BlockFits b then { it with rest := encodeEntries b } else { it with valid := false }) := by
  obtain ⟨ie, hie, -, hread⟩ := readBlock_tableOf hmax h
  unfold SSTable.loadBlock
  rw [hidx]
  simp only [hie, hread]
  show (if (encodeEntries (readBack b)).isEmpty = true then _ else _) = _
  unfold readBack
  by_cases hfit : BlockFits b
  · have hb : b ≠ [] := cutBlocks_ne_nil (show b ∈ blocksOf es by rw [h]; simp)
    have hne : (encodeEntries b).isEmpty = false := by
      rw [List.isEmpty_eq_false_iff]
      exact mt encodeEntries_eq_nil.1 hb
    rw [if_pos hfit, if_pos hfit, hne]
    rfl
  · rw [if_neg hfit, if_neg hfit]
    rfl

theorem Stands.mem (h : Stands es it r bs) {e : Entry} (he : e ∈ r) : e ∈ es := by
  obtain ⟨as, b, hblocks, -, -, hsuf⟩ := h.block
  exact mem_of_mem_blocksOf (by rw [hblocks]; simp) (hsuf.subset he)

theorem Stands.fits (h : Stands es it r bs) {e : Entry} (he : e ∈ r) : e.Fits := by
  obtain ⟨as, b, hblocks, -, hfit, hsuf⟩ := h.block
  exact hfit.fits (hsuf.subset he)

/-- The sum the seeking constructor steps on by does not wrap. -/
theorem Stands.lengths_lt {e : Entry} (h : Stands es it (e :: r) bs) :
    e.key.length + e.storedValue.length < 2 ^ 32 := by
  obtain ⟨as, b, hblocks, -, hfit, hsuf⟩ := h.block
  have hle := encodeEntry_length_le (hsuf.subset (List.mem_cons_self (a := e) (l := r)))
  have hmax : maxTransfer = 2147479552 := rfl
  rw [encodeEntry_eq, List.length_append, List.length_append] at hle
  unfold BlockFits at hfit
  omega

/-- Reading on inside the block. -/
theorem Stands.tail {e : Entry} (h : Stands es it (e :: r) bs) (current : Entry) :
    Stands es { it with current := current, rest := encodeEntries r } r bs := by
  obtain ⟨as, b, hblocks, hidx, hfit, hsuf⟩ := h.block
  exact ⟨h.valid, rfl, as, b, hblocks, hidx, hfit, (List.suffix_cons e r).trans hsuf⟩

/-- At the end of a block the iterator steps to the next one. It becomes invalid behind the last
    and where the next one cannot be read. -/
theorem nextBlock_tableOf (hmax : (tableFile es).length ≤ maxFileSize)
    (h : Stands es it r bs) :
    (r ++ (readable bs).flatten = [] ∧
      ∃ it', (tableOf es).nextBlock it = .ok it' ∧ it'.valid = false) ∨
    ∃ e r' bs' it', r ++ (readable bs).flatten = e :: (r' ++ (readable bs').flatten) ∧
      (tableOf es).nextBlock it = .ok it' ∧ Stands es it' (e :: r') bs' := by
  obtain ⟨as, b, hblocks, hidx, -, hsuf⟩ := h.block
  unfold SSTable.nextBlock
  rw [version_tableOf, entryHdr_three]
  cases r with
  | cons e r =>
    right
    have hlen : ¬ it.rest.length < 17 := by
      have := encodeEntry_length_ge e
      rw [h.rest, encodeEntries, List.flatMap_cons, List.length_append]
      omega
    rw [if_neg hlen]
    exact ⟨e, r, bs, it, rfl, rfl, h⟩
  | nil =>
    rw [if_pos (by rw [h.rest]; decide)]
    cases bs with
    | nil =>
      left
      refine ⟨rfl, { it with blockIdx := it.blockIdx + 1, valid := false }, ?_, rfl⟩
      have hnone : (tableOf es).index[it.blockIdx + 1]? = none := by
        rw [List.getElem?_eq_none_iff, index_length, hblocks, hidx]
        simp
      simp only [SSTable.loadBlock, hnone]
    | cons b' bs =>
      have hblocks' : blocksOf es = (as ++ [b]) ++ b' :: bs := by simp [hblocks]
      have hload := loadBlock_tableOf { it with blockIdx := it.blockIdx + 1 } hmax
        hblocks' (by simp [hidx])
      rw [readable_cons]
      by_cases hfit : BlockFits b'
      · right
        obtain ⟨e, r, rfl⟩ := List.exists_cons_of_ne_nil
          (cutBlocks_ne_nil (show b' ∈ blocksOf es by rw [hblocks]; simp))
        rw [if_pos hfit] at hload ⊢
        exact ⟨e, r, bs, _, rfl, hload, h.valid, rfl, as ++ [b], e :: r, hblocks', by simp [hidx],
          hfit, List.suffix_rfl⟩
      · left
        rw [if_neg hfit] at hload ⊢
        exact ⟨rfl, _, hload, rfl⟩

theorem parse_front {e : Entry} (h : Stands es it (e :: r) bs) :
    ¬ it.rest.length < 17 ∧
    SSTable.parseHeader kFormatVersion it.rest =
      ⟨if e.tombstone then 1 else 0, e.seq, e.key.length, e.storedValue.length⟩ ∧
    it.rest.drop 17 = e.key ++ (e.storedValue ++ encodeEntries r) := by
  have hrest : it.rest = entryHeader e ++ (e.key ++ (e.storedValue ++ encodeEntries r)) := by
    rw [h.rest, encodeEntries, List.flatMap_cons, encodeEntry_eq, List.append_assoc,
      List.append_assoc]
    rfl
  rw [hrest]
  refine ⟨?_, parseHeader_entryHeader (h.fits List.mem_cons_self) _, List.drop_left' (entryHeader_length e)⟩
  rw [List.length_append, entryHeader_length]
  omega

/-- One `parse_entry` on an entry that is there. -/
theorem parseEntry_front {e : Entry} (h : Stands es it (e :: r) bs) :
    (tableOf es).parseEntry it =
      .ok { it with current := e.stored, rest := encodeEntries r } := by
  obtain ⟨hlen, hhdr, hbody⟩ := parse_front h
  have hnext : (tableOf es).nextBlock it = .ok it := by
    rw [SSTable.nextBlock, version_tableOf, entryHdr_three, if_neg hlen]
  have hcur : (⟨e.key, e.storedValue, (if e.tombstone then (1 : UInt8) else 0) = 1, e.seq⟩ :
      Entry) = e.stored := by
    unfold Entry.stored
    cases ht : e.tombstone <;> simp
  unfold SSTable.parseEntry
  rw [if_neg (by simp [h.valid]), hnext]
  show (if ¬ it.valid = true then _ else _) = _
  rw [if_neg (by simp [h.valid]), version_tableOf, entryHdr_three, if_neg hlen]
  simp only [hhdr, hbody, List.take_left, List.drop_left, hcur]
  rw [if_neg (by simp), ← List.append_assoc, List.drop_left' (by simp)]

/-- One `parse_entry`. -/
theorem parseEntry_tableOf (hmax : (tableFile es).length ≤ maxFileSize)
    (h : Stands es it r bs) :
    (r ++ (readable bs).flatten = [] ∧
      ∃ it', (tableOf es).parseEntry it = .ok it' ∧ it'.valid = false) ∨
    ∃ e r' bs' it', r ++ (readable bs).flatten = e :: (r' ++ (readable bs').flatten) ∧
      (tableOf es).parseEntry it = .ok it' ∧ it'.current = e.stored ∧ Stands es it' r' bs' := by
  have hskip : ∀ {it'}, (tableOf es).nextBlock it = .ok it' → it'.valid = true →
      (tableOf es).nextBlock it' = .ok it' →
      (tableOf es).parseEntry it = (tableOf es).parseEntry it' := by
    intro it' h1 h2 h3
    unfold SSTable.parseEntry
    rw [if_neg (by simp [h.valid]), if_neg (by simp [h2]), h1, h3]
  rcases nextBlock_tableOf hmax h with ⟨hnil, it', hnext, hv'⟩ |
    ⟨e, r', bs', it', hrem, hnext, hst⟩
  · left
    refine ⟨hnil, it', ?_, hv'⟩
    unfold SSTable.parseEntry
    rw [if_neg (by simp [h.valid]), hnext]
    show (if ¬ it'.valid = true then _ else _) = _
    rw [if_pos (by simp [hv'])]
  · right
    have hstay : (tableOf es).nextBlock it' = .ok it' := by
      rw [SSTable.nextBlock, version_tableOf, entryHdr_three, if_neg (parse_front hst).1]
    refine ⟨e, r', bs', _, hrem, ?_, rfl, hst.tail e.stored⟩
    rw [hskip hnext hst.valid hstay, parseEntry_front hst]

/-! ## Going through the table -/

/-- What is left from the entry the iterator is at. -/
theorem drain_tableOf (hmax : (tableFile es).length ≤ maxFileSize)
    (h : Stands es it r bs) {fuel : Nat}
    (hfuel : (r ++ (readable bs).flatten).length + 1 < fuel) :
    (tableOf es).drain fuel it =
      .ok (it.current :: (r ++ (readable bs).flatten).map Entry.stored) := by
  induction fuel generalizing it r bs with
  | zero => omega
  | succ fuel ih =>
    rw [SSTable.drain, if_neg (by simp [h.valid])]
    rcases parseEntry_tableOf hmax h with ⟨hnil, it', hparse, hv'⟩ |
      ⟨e, r', bs', it', hrem, hparse, hcur, hst⟩
    · rw [hparse, hnil]
      obtain ⟨f, rfl⟩ : ∃ f, fuel = f + 1 := ⟨fuel - 1, by omega⟩
      show (do let es ← (tableOf es).drain (f + 1) it'; .ok (it.current :: es)) = _
      rw [SSTable.drain, if_pos (by simp [hv'])]
      rfl
    · rw [hrem, List.length_cons] at hfuel
      rw [hparse, hrem]
      show (do let es ← (tableOf es).drain fuel it'; .ok (it.current :: es)) = _
      rw [ih hst (by omega), hcur]
      rfl

theorem encodeEntries_le_blockPart (es : List Entry) :
    (encodeEntries es).length ≤ (blockPart es).length := by
  have h : ∀ bs : List (List Entry),
      (encodeEntries bs.flatten).length ≤ (bs.flatMap blockBytes).length := by
    intro bs
    induction bs with
    | nil => simp [encodeEntries]
    | cons b bs ih =>
      rw [List.flatten_cons, encodeEntries_append, List.flatMap_cons, List.length_append,
        List.length_append, blockBytes, List.length_append]
      omega
  have := h (blocksOf es)
  rwa [flatten_blocksOf] at this

theorem length_lt_iterFuel (es : List Entry) : es.length + 1 < (tableOf es).iterFuel := by
  have hflat := encodeEntries_le_blockPart es
  have hle := length_le_encodeEntries es
  have hlen := tableFile_length_eq es
  have hfoot : kFooterSize = 40 := rfl
  have hfile : (tableOf es).file.length = (tableFile es).length := rfl
  unfold SSTable.iterFuel
  have hmul := Nat.mul_le_mul_right ((tableOf es).file.length + 1)
    (show 1 ≤ (tableOf es).index.length + 1 by omega)
  omega

theorem readable_length_le {as bs : List (List Entry)} (h : blocksOf es = as ++ bs) :
    (readable bs).flatten.length ≤ es.length := by
  have hflat := congrArg List.length (congrArg List.flatten h)
  have hpre := (List.IsPrefix.flatten (readable_isPrefix bs)).length_le
  rw [flatten_blocksOf, List.flatten_append, List.length_append] at hflat
  omega

/-- From `begin()` on, with enough turns. -/
theorem drain_begin_tableOf (hmax : (tableFile es).length ≤ maxFileSize)
    {fuel : Nat} (hfuel : es.length + 1 < fuel) :
    (do let it ← (tableOf es).begin; (tableOf es).drain fuel it) =
      .ok ((readable (blocksOf es)).flatten.map Entry.stored) := by
  unfold SSTable.begin
  obtain ⟨f, rfl⟩ : ∃ f, fuel = f + 1 := ⟨fuel - 1, by omega⟩
  by_cases hes : es = []
  · rw [if_pos ((index_isEmpty es).2 hes), hes]
    rfl
  · rw [if_neg (mt (index_isEmpty es).1 hes)]
    obtain ⟨b, bs, hblocks⟩ := List.exists_cons_of_ne_nil (mt blocksOf_eq_nil.1 hes)
    have hload := loadBlock_tableOf ⟨0, [], true, ⟨[], [], false, 0⟩⟩ hmax
      (show blocksOf es = [] ++ b :: bs from hblocks) rfl
    have hle := readable_length_le (show blocksOf es = [] ++ b :: bs from hblocks)
    unfold SSTable.Iterator.at
    rw [hload, hblocks]
    rw [readable_cons] at hle ⊢
    by_cases hfit : BlockFits b
    · rw [if_pos hfit] at hle ⊢
      rw [if_pos hfit]
      have hst : Stands es ⟨0, encodeEntries b, true, ⟨[], [], false, 0⟩⟩ b bs :=
        ⟨rfl, rfl, [], b, hblocks, rfl, hfit, List.suffix_rfl⟩
      show (do let it ← (tableOf es).parseEntry ⟨0, encodeEntries b, true, ⟨[], [], false, 0⟩⟩
               (tableOf es).drain (f + 1) it) = _
      rcases parseEntry_tableOf hmax hst with
        ⟨hnil, -⟩ | ⟨e, r', bs', it', hrem, hparse, hcur, hst'⟩
      · exact absurd (List.append_eq_nil_iff.1 hnil).1
          (cutBlocks_ne_nil (show b ∈ blocksOf es by rw [hblocks]; simp))
      · rw [List.flatten_cons, hrem] at hle ⊢
        rw [List.length_cons] at hle
        rw [hparse]
        show (tableOf es).drain (f + 1) it' = _
        rw [drain_tableOf hmax hst' (by omega), hcur, List.map_cons]
    · rw [if_neg hfit, if_neg hfit]
      rfl

/-- **What an iterator passes**: the entries of the blocks in front of the first one that cannot
    be read, in order. -/
theorem entries_readable (hmax : (tableFile es).length ≤ maxFileSize) :
    (tableOf es).entries = .ok ((readable (blocksOf es)).flatten.map Entry.stored) :=
  drain_begin_tableOf hmax (length_lt_iterFuel es)

/-- **Every entry, in order.** -/
theorem entries_tableOf (hfit : BlocksFit es) (hmax : (tableFile es).length ≤ maxFileSize) :
    (tableOf es).entries = .ok (es.map Entry.stored) := by
  rw [entries_readable hmax, readable_eq_self hfit, flatten_blocksOf]

/-! ## The round trip -/

/-- Blocks that stand one behind the other from `off` to `stop`. -/
def Tiles : Nat → List IndexEntry → Nat → Prop
  | off, [], stop => off = stop
  | off, ie :: index, stop => ie.offset.toNat = off ∧ Tiles (off + ie.length.toNat) index stop

theorem tiles_indexOf {off : Nat} {bs : List (List Entry)}
    (h : off + (bs.flatMap blockBytes).length ≤ maxFileSize) :
    Tiles off (indexOf off bs) (off + (bs.flatMap blockBytes).length) := by
  have hm : maxFileSize < 2 ^ 64 := by decide
  induction bs generalizing off with
  | nil => exact (Nat.add_zero off).symm
  | cons b bs ih =>
    rw [List.flatMap_cons, List.length_append] at h
    have hlen : (UInt64.ofNat (blockBytes b).length).toNat = (blockBytes b).length :=
      toNat_u64_of_lt (by omega)
    refine ⟨toNat_u64_of_lt (by omega), ?_⟩
    rw [hlen, List.flatMap_cons, List.length_append, ← Nat.add_assoc]
    exact ih (by omega)

theorem le_maxSeqOf {e : Entry} (he : e ∈ es) : e.seq ≤ maxSeqOf es := by
  induction es using List.reverseRecOn with
  | nil => simp at he
  | append_singleton es x ih =>
    rw [maxSeqOf, List.foldl_append, List.foldl_cons, List.foldl_nil, ← maxSeqOf]
    rcases List.mem_append.1 he with he | he
    · exact le_trans (ih he) (le_max_left _ _)
    · rw [List.mem_singleton.1 he]
      exact le_max_right _ _

theorem maxSeqOf_mem (hes : es ≠ []) : ∃ e ∈ es, e.seq = maxSeqOf es := by
  induction es using List.reverseRecOn with
  | nil => exact absurd rfl hes
  | append_singleton es x ih =>
    rw [maxSeqOf, List.foldl_append, List.foldl_cons, List.foldl_nil, ← maxSeqOf]
    rcases max_choice (maxSeqOf es) x.seq with h | h
    · rw [h]
      by_cases hnil : es = []
      · -- the maximum of nothing is zero, below any number
        subst hnil
        refine ⟨x, by simp, le_antisymm (h ▸ le_max_right _ _) ?_⟩
        exact UInt64.zero_le
      · obtain ⟨e, he, hseq⟩ := ih hnil
        exact ⟨e, List.mem_append_left _ he, hseq⟩
    · exact ⟨x, by simp, h.symm⟩

theorem entryCount_tableOf (hmax : (tableFile es).length ≤ maxFileSize) :
    (tableOf es).entryCount.toNat = es.length := by
  have hlen := tableFile_length_eq es
  have hm : maxFileSize < 2 ^ 64 := by decide
  have h1 := length_le_encodeEntries es
  have h2 := encodeEntries_le_blockPart es
  exact toNat_u64_of_lt (show es.length < 2 ^ 64 by omega)

/-- What an opened table has to do with the entries it was written from. -/
structure RoundTrip (es : List Entry) (t : SSTable) : Prop where
  entries : t.entries = .ok (es.map Entry.stored)
  tiles : Tiles 0 t.index t.footer.indexOffset.toNat
  blocks : ∀ ie ∈ t.index, ∃ payload, (t.file.drop ie.offset.toNat).take ie.length.toNat =
    payload ++ putU32Le (crc32 payload) ∧ t.readBlock ie = .ok payload
  count : t.entryCount.toNat = es.length
  maxSeq_ge : ∀ e ∈ es, e.seq ≤ t.maxSeq
  maxSeq_mem : (es = [] ∧ t.maxSeq = 0) ∨ ∃ e ∈ es, e.seq = t.maxSeq

/-- An iteration that passes as many entries as were written has read every block. -/
theorem blockFits_of_length {bs : List (List Entry)} (hne : ∀ b ∈ bs, b ≠ [])
    (h : bs.flatten.length ≤ (readable bs).flatten.length) : ∀ b ∈ bs, BlockFits b := by
  induction bs with
  | nil => simp
  | cons b bs ih =>
    rw [readable_cons, List.flatten_cons, List.length_append] at h
    have hpos := List.length_pos_of_ne_nil (hne b List.mem_cons_self)
    by_cases hfit : BlockFits b
    · rw [if_pos hfit, List.flatten_cons, List.length_append] at h
      intro b' hb'
      rcases List.mem_cons.1 hb' with rfl | hb'
      · exact hfit
      · exact ih (fun b hb => hne b (List.mem_cons_of_mem _ hb)) (by omega) b' hb'
    · rw [if_neg hfit, List.flatten_nil, List.length_nil] at h
      omega

theorem roundTrip_tableOf (h : TableFits es) : RoundTrip es (tableOf es) := by
  have hmax := h.file
  have hlen := tableFile_length_eq es
  have hm : maxFileSize < 2 ^ 64 := by decide
  refine ⟨entries_tableOf h.blocks hmax, ?_, fun ie hie => ?_,
    entryCount_tableOf hmax, fun e he => le_maxSeqOf he, ?_⟩
  · have hoff : (footerOf es).indexOffset.toNat = 0 + (blockPart es).length := by
      rw [Nat.zero_add]
      exact toNat_u64_of_lt (by omega)
    show Tiles 0 (indexOf 0 (blocksOf es)) (footerOf es).indexOffset.toNat
    rw [hoff]
    exact tiles_indexOf (show 0 + (blockPart es).length ≤ maxFileSize by omega)
  · obtain ⟨i, hi, rfl⟩ := List.getElem_of_mem hie
    have hblock : i < (blocksOf es).length := by rwa [← index_length]
    obtain ⟨ie, hget, -, -, hbytes, hread⟩ := pread_tableOf hmax
      (show blocksOf es = (blocksOf es).take i ++ (blocksOf es)[i] :: (blocksOf es).drop (i + 1) by
        rw [List.getElem_cons_drop, List.take_append_drop])
    rw [List.length_take_of_le hblock.le, List.getElem?_eq_getElem hi] at hget
    obtain rfl := Option.some.inj hget
    rw [if_pos (h.blocks _ (List.getElem_mem hblock))] at hread
    exact ⟨_, hbytes, readBlock_of_pread (UInt32.le_refl 3) hmax hread⟩
  · by_cases hes : es = []
    · exact Or.inl ⟨hes, by rw [hes]; rfl⟩
    · exact Or.inr (maxSeqOf_mem hes)

/-- **The table format round trip**, for any list: sorted or not, with the empty key, with any
    seqs and tombstones. It succeeds exactly when the index, the filter and every block come
    with one `pread` each. -/
theorem open_writeTable_iff {file : Bytes} (hw : writeTable es = some file) :
    (∃ t, SSTable.open file = .ok t ∧ RoundTrip es t) ↔ TableFits es := by
  rw [writeTable_eq] at hw
  split at hw
  · rename_i hmax
    obtain rfl := Option.some.inj hw
    constructor
    · rintro ⟨t, hopen, hrt⟩
      obtain ⟨hopens, rfl⟩ := (open_tableFile_iff hmax).1 hopen
      have hback := Except.ok.inj ((entries_readable hmax).symm.trans hrt.entries)
      have hlen := congrArg List.length hback
      rw [List.length_map, List.length_map] at hlen
      refine ⟨hopens, hmax, blockFits_of_length (fun b hb => cutBlocks_ne_nil hb) ?_⟩
      rw [hlen, flatten_blocksOf]
    · exact fun h => ⟨tableOf es, open_tableFile h.toOpens hmax, roundTrip_tableOf h⟩
  · simp at hw

/-- An unsorted list with the empty key and a tombstone that was given a value. -/
theorem open_writeTable_unsorted : ∃ file t, writeTable [⟨[5], [1], false, 9⟩, ⟨[], [2], true, 3⟩] =
      some file ∧ SSTable.open file = .ok t ∧ t.entries = .ok [⟨[5], [1], false, 9⟩, ⟨[], [], true, 3⟩] := by
  have h : (writeTable [⟨[5], [1], false, 9⟩, ⟨[], [2], true, 3⟩]).isSome = true := by decide +kernel
  obtain ⟨file, hw⟩ := Option.isSome_iff_exists.1 h
  obtain ⟨t, hopen, hrt⟩ := (open_writeTable_iff hw).2 (by decide +kernel)
  exact ⟨file, t, hw, hopen, hrt.entries⟩

/-! ## A block that is too large -/

theorem indexPart_one_length (v : Bytes) (s : UInt64) :
    (indexPart [⟨[1], v, false, s⟩]).length = 21 := by
  rw [indexPart, show blocksOf [⟨[1], v, false, s⟩] = [[⟨[1], v, false, s⟩]] from rfl, indexOf,
    indexOf, List.flatMap_cons, List.flatMap_nil, List.append_nil, encodeIndexEntry_length]
  rfl

theorem bloomOf_one_length (v : Bytes) (s : UInt64) :
    (bloomOf [⟨[1], v, false, s⟩]).serialize.length = 14 := by
  show ((Bloom.new 1 10).addAll [[1]]).serialize.length = 14
  decide +kernel

theorem opens_one (v : Bytes) (s : UInt64) : Opens [⟨[1], v, false, s⟩] :=
  ⟨by rw [indexPart_one_length]; decide, by rw [bloomOf_one_length]; decide⟩

theorem tableFile_one_length (v : Bytes) (s : UInt64) :
    (tableFile [⟨[1], v, false, s⟩]).length = v.length + 97 := by
  have hblock : (blockPart [⟨[1], v, false, s⟩]).length = 17 + 1 + v.length + 4 := by
    rw [blockPart, show blocksOf [⟨[1], v, false, s⟩] = [[⟨[1], v, false, s⟩]] from rfl,
      List.flatMap_cons, List.flatMap_nil, List.append_nil, blockBytes_length,
      encodeEntries_singleton, encodeEntry_length]
    rfl
  rw [tableFile_length_eq, hblock, indexPart_one_length, bloomOf_one_length]
  show _ + 40 = _
  omega

/-- A value too long for one `pread` of its block: the table opens and reads back as empty. -/
theorem entries_one_long (v : Bytes) (s : UInt64) (hlong : maxTransfer < v.length + 22)
    (hmax : (tableFile [⟨[1], v, false, s⟩]).length ≤ maxFileSize) :
    (tableOf [⟨[1], v, false, s⟩]).entries = .ok [] := by
  have hfit : ¬ BlockFits [⟨[1], v, false, s⟩] := by
    unfold BlockFits
    rw [encodeEntries_singleton, encodeEntry_length]
    show ¬ 17 + 1 + v.length + 4 ≤ maxTransfer
    omega
  rw [entries_readable hmax, show blocksOf [⟨[1], v, false, s⟩] = [[⟨[1], v, false, s⟩]] from rfl,
    readable_cons, if_neg hfit]
  rfl

/-- A value of 2147479531 bytes, one more than fits: with its header, its key and the CRC the
    block has 2147479553 bytes. -/
theorem open_writeTable_long :
    ∃ file t, writeTable [⟨[1], List.replicate 2147479531 0, false, 1⟩] = some file ∧
      SSTable.open file = .ok t ∧ t.entries = .ok [] ∧ t.entryCount = 1 := by
  have hlen := tableFile_one_length (List.replicate 2147479531 0) 1
  rw [List.length_replicate] at hlen
  have hmax : (tableFile [⟨[1], List.replicate 2147479531 0, false, 1⟩]).length ≤ maxFileSize := by
    rw [hlen]
    decide
  refine ⟨_, tableOf [⟨[1], List.replicate 2147479531 0, false, 1⟩], ?_,
    open_tableFile (opens_one _ _) hmax, entries_one_long _ _ ?_ hmax, rfl⟩
  · rw [writeTable_eq, if_pos hmax]
  · rw [List.length_replicate]
    decide

/-! ## Seeking -/

/-- One turn of the seeking loop that has an entry to look at. -/
theorem seekLoop_step (target : Bytes) (fuel : Nat) {it' : SSTable.Iterator} {e : Entry}
    (hnext : (tableOf es).nextBlock it = .ok it') (hst : Stands es it' (e :: r) bs) :
    (tableOf es).seekLoop target (fuel + 1) it =
      if e.key ≥ target then (tableOf es).parseEntry it'
      else (tableOf es).seekLoop target fuel { it' with rest := encodeEntries r } := by
  obtain ⟨hlen, hhdr, hbody⟩ := parse_front hst
  have hsum := hst.lengths_lt
  rw [SSTable.seekLoop, hnext]
  show (if ¬ it'.valid = true then _ else _) = _
  rw [if_neg (by simp [hst.valid]), version_tableOf, entryHdr_three, if_neg hlen]
  simp only [hhdr, hbody, List.take_left, Nat.mod_eq_of_lt hsum]
  rw [if_neg (by simp), ← List.append_assoc, List.drop_left' (by simp)]

/-- The loop of the seeking constructor passes over the entries with smaller keys. -/
theorem seekLoop_tableOf (hmax : (tableFile es).length ≤ maxFileSize)
    (target : Bytes) (h : Stands es it r bs) {fuel : Nat}
    (hfuel : (r ++ (readable bs).flatten).length < fuel) :
    ((r ++ (readable bs).flatten).dropWhile (fun e => decide (e.key < target)) = [] ∧
      ∃ it', (tableOf es).seekLoop target fuel it = .ok it' ∧ it'.valid = false) ∨
    ∃ e r' bs' it', (r ++ (readable bs).flatten).dropWhile (fun e => decide (e.key < target)) =
        e :: (r' ++ (readable bs').flatten) ∧ (tableOf es).seekLoop target fuel it = .ok it' ∧
      it'.current = e.stored ∧ Stands es it' r' bs' := by
  induction fuel generalizing it r bs with
  | zero => omega
  | succ fuel ih =>
    rcases nextBlock_tableOf hmax h with ⟨hnil, it', hnext, hv'⟩ |
      ⟨e, r', bs', it', hrem, hnext, hst⟩
    · left
      refine ⟨by rw [hnil]; rfl, it', ?_, hv'⟩
      rw [SSTable.seekLoop, hnext]
      show (if ¬ it'.valid = true then _ else _) = _
      rw [if_pos (by simp [hv'])]
    · rw [seekLoop_step target fuel hnext hst, hrem]
      by_cases hge : e.key ≥ target
      · right
        rw [if_pos hge, List.dropWhile_cons_of_neg (by simpa using hge)]
        exact ⟨e, r', bs', _, rfl, parseEntry_front hst, rfl, hst.tail e.stored⟩
      · rw [if_neg hge, List.dropWhile_cons_of_pos (by simpa using hge)]
        rw [hrem, List.length_cons] at hfuel
        exact ih (hst.tail it'.current) (by omega)

/-- The iterator from `seek(target)` on, in terms of the blocks from the one the index search
    takes. -/
theorem entriesFrom_tableOf (hmax : (tableFile es).length ≤ maxFileSize) (target : Bytes)
    {as bs : List (List Entry)} (hblocks : blocksOf es = as ++ bs) (hbs : bs ≠ [])
    (hidx : ((tableOf es).findBlockIdx target).getD 0 = as.length) :
    (tableOf es).entriesFrom target =
      .ok (((readable bs).flatten.dropWhile fun e => e.key < target).map Entry.stored) := by
  have hle := readable_length_le hblocks
  obtain ⟨b, bs, rfl⟩ := List.exists_cons_of_ne_nil hbs
  have hes : es ≠ [] := by
    rintro rfl
    simp [blocksOf, cutBlocks] at hblocks
  have hload := loadBlock_tableOf ⟨as.length, [], true, ⟨[], [], false, 0⟩⟩ hmax hblocks rfl
  have hfuel := length_lt_iterFuel es
  obtain ⟨f, hf'⟩ : ∃ f, (tableOf es).iterFuel = f + 1 := ⟨(tableOf es).iterFuel - 1, by omega⟩
  have hstop : ∀ it : SSTable.Iterator, it.valid = false →
      (tableOf es).drain (tableOf es).iterFuel it = .ok [] := by
    intro it hv
    rw [hf', SSTable.drain, if_pos (by simp [hv])]
  unfold SSTable.entriesFrom SSTable.seek SSTable.Iterator.seeking
  rw [if_neg (mt (index_isEmpty es).1 hes), hidx, hload]
  rw [readable_cons] at hle ⊢
  by_cases hfit : BlockFits b
  · rw [if_pos hfit] at hle ⊢
    rw [if_pos hfit]
    rw [List.flatten_cons] at hle ⊢
    have hst : Stands es ⟨as.length, encodeEntries b, true, ⟨[], [], false, 0⟩⟩ b bs :=
      ⟨rfl, rfl, as, b, hblocks, rfl, hfit, List.suffix_rfl⟩
    show (do let it ← (tableOf es).seekLoop target (tableOf es).iterFuel
                 ⟨as.length, encodeEntries b, true, ⟨[], [], false, 0⟩⟩
             (tableOf es).drain (tableOf es).iterFuel it) = _
    rcases seekLoop_tableOf hmax target hst (show _ < (tableOf es).iterFuel by omega) with
      ⟨hnil, it', hloop, hv'⟩ | ⟨e, r', bs', it', hrem, hloop, hcur, hst'⟩
    · rw [hloop, hnil]
      exact hstop it' hv'
    · have hlen := congrArg List.length hrem
      have hdw := (List.dropWhile_sublist (l := b ++ (readable bs).flatten)
        (fun e => decide (e.key < target))).length_le
      rw [List.length_cons] at hlen
      rw [hloop, hrem]
      show (tableOf es).drain (tableOf es).iterFuel it' = _
      rw [drain_tableOf hmax hst' (by omega), hcur, List.map_cons]
  · rw [if_neg hfit, if_neg hfit]
    exact hstop ⟨as.length, [], false, ⟨[], [], false, 0⟩⟩ rfl

/-- No block boundary separates two versions of one key. -/
def KeysWhole (blocks : List (List Entry)) : Prop :=
  blocks.IsChain fun b b' => ∀ e ∈ b, e.key ≠ headKey b'

theorem KeysWhole.splitsAgree {blocks : List (List Entry)} (h : KeysWhole blocks) :
    SplitsAgree blocks :=
  h.imp fun _ _ hb e he hk => absurd hk (hb e he)

/-- One version of each key leaves nothing to separate. -/
theorem keysWhole_of_keys (h : es.Pairwise fun a b => a.key < b.key) :
    KeysWhole (blocksOf es) := by
  rw [← flatten_blocksOf es, List.pairwise_flatten] at h
  refine List.Pairwise.isChain (h.2.imp_of_mem fun {b b'} _ hb' hlt e he => ?_)
  obtain ⟨e', he', hk⟩ := headKey_mem (cutBlocks_ne_nil hb')
  exact hk ▸ ne_of_lt (hlt e he e' he')

theorem cutBlocks_length_le {n : Nat} (hsmall : ∀ e ∈ es, (encodeEntry e).length ≤ n)
    {cur : List Entry} (h : (cur ++ es).Pairwise fun a b => a.key < b.key)
    (hcur : (encodeEntries cur).length ≤ kBlockTargetSize + n) :
    ∀ b ∈ cutBlocks cur es, (encodeEntries b).length ≤ kBlockTargetSize + n := by
  induction es generalizing cur with
  | nil =>
    intro b hb
    cases cur with
    | nil => exact absurd hb List.not_mem_nil
    | cons c cur => exact List.mem_singleton.1 hb ▸ hcur
  | cons e es ih =>
    have he := hsmall e List.mem_cons_self
    have htail : ∀ e' ∈ es, (encodeEntry e').length ≤ n :=
      fun e' he' => hsmall e' (List.mem_cons_of_mem e he')
    rw [cutBlocks]
    split
    · intro b hb
      rcases List.mem_cons.1 hb with rfl | hb
      · exact hcur
      · refine ih htail (h.sublist (List.sublist_append_right cur (e :: es))) ?_ b hb
        rw [encodeEntries_singleton]
        omega
    · rename_i hcut
      refine ih htail (by simpa using h) ?_
      -- the key of `e` is new, so that the buffer is still below the target
      have hlt : (encodeEntries cur).length < kBlockTargetSize := by
        by_contra hge
        have hne : cur ≠ [] := by
          rintro rfl
          exact absurd hge (by decide)
        obtain ⟨c, hc, hk⟩ := headKey_mem hne
        have hnew := (List.pairwise_append.1 h).2.2 c hc e List.mem_cons_self
        exact hcut ⟨hne, not_lt.1 hge, fun heq => absurd (hk.trans heq.symm) (ne_of_lt hnew)⟩
      rw [encodeEntries_append, List.length_append, encodeEntries_singleton]
      omega

/-- With one version of each key no block is much longer than the target. -/
theorem blocksFit_of_keys (h : es.Pairwise fun a b => a.key < b.key) {n : Nat}
    (hsmall : ∀ e ∈ es, (encodeEntry e).length ≤ n) (hn : kBlockTargetSize + n + 4 ≤ maxTransfer) :
    BlocksFit es := by
  intro b hb
  have hle := @cutBlocks_length_le es n hsmall [] h (Nat.zero_le _) b hb
  unfold BlockFits
  omega

/-- **A seek in a sorted table with whole keys** passes exactly the entries from the target
    on. -/
theorem entriesFrom_sorted (hs : SortedLe es) (hfit : BlocksFit es)
    (hmax : (tableFile es).length ≤ maxFileSize) (hw : KeysWhole (blocksOf es))
    (target : Bytes) :
    (tableOf es).entriesFrom target =
      .ok ((es.filter fun e => target ≤ e.key).map Entry.stored) := by
  by_cases hes : es = []
  · unfold SSTable.entriesFrom SSTable.seek
    rw [if_pos ((index_isEmpty es).2 hes), hes]
    rfl
  rcases findBlockIdx_spec hs target with ⟨hnone, hall⟩ | ⟨as, b, bs, hblocks, hidx, hb, hbs⟩
  · rw [entriesFrom_tableOf hmax target (show blocksOf es = [] ++ blocksOf es from rfl)
      (mt blocksOf_eq_nil.1 hes) (by rw [hnone]; rfl), readable_eq_self hfit, flatten_blocksOf,
      dropWhile_eq_filter hs]
  · have hread : readable (b :: bs) = b :: bs :=
      readable_eq_self fun b' hb' => hfit b' (by rw [hblocks]; exact List.mem_append_right _ hb')
    rw [entriesFrom_tableOf hmax target hblocks (by simp) (by rw [hidx]; rfl), hread]
    have hflat : es = as.flatten ++ (b :: bs).flatten := by
      rw [← List.flatten_append, ← hblocks, flatten_blocksOf]
    have hs' : SortedLe (b :: bs).flatten := by
      rw [hflat] at hs
      exact (List.pairwise_append.1 hs).2.1
    have hbefore : as.flatten.filter (fun e => target ≤ e.key) = [] := by
      rw [List.filter_eq_nil_iff]
      intro e he hge
      rw [decide_eq_true_eq] at hge
      have hle : e.key ≤ headKey b := by
        obtain ⟨x, hx, hxk⟩ := headKey_mem
          (cutBlocks_ne_nil (show b ∈ blocksOf es by rw [hblocks]; simp))
        rw [hflat] at hs
        rw [← hxk]
        exact ((List.pairwise_append.1 hs).2.2 e he x
          (List.mem_flatten.2 ⟨b, by simp, hx⟩)).key_le
      have hk : e.key = target := le_antisymm (le_trans hle hb) hge
      obtain ⟨as', a, rfl, hea, hbk⟩ := straddle_of_mem hs hblocks hb he hk
      exact List.isChain_iff_forall_rel_of_append_cons_cons.1 hw
        (show blocksOf es = as' ++ a :: b :: bs by simp [hblocks]) e hea (hk.trans hbk.symm)
    rw [dropWhile_eq_filter hs']
    nth_rewrite 1 [hflat]
    rw [List.filter_append, hbefore, List.nil_append]

/-- A seek to a key whose versions are separated misses those in front of the boundary. -/
theorem keysWhole_of_entriesFrom (hs : SortedLe es) (hfit : BlocksFit es)
    (hmax : (tableFile es).length ≤ maxFileSize)
    (h : ∀ target, ∃ out, (tableOf es).entriesFrom target = .ok out ∧
      out.length = (es.filter fun e => target ≤ e.key).length) :
    KeysWhole (blocksOf es) := by
  refine List.isChain_iff_forall_rel_of_append_cons_cons.2 fun {a b as bs} hblocks e he hk => ?_
  have hblocks' : blocksOf es = (as ++ [a]) ++ b :: bs := by simp [hblocks]
  have hheads := pairwise_headKey hs
  rw [hblocks'] at hheads
  have hbs : ∀ b' ∈ bs, e.key < headKey b' := fun b' hb' => by
    rw [hk]
    exact (List.pairwise_cons.1 (List.pairwise_append.1 hheads).2.1).1 b' hb'
  have hidx := findBlockIdx_eq hs hblocks' (le_of_eq hk.symm) hbs
  have hflat : es = (as ++ [a]).flatten ++ (b :: bs).flatten := by
    rw [← List.flatten_append, ← hblocks', flatten_blocksOf]
  have hs' : SortedLe (b :: bs).flatten := by
    rw [hflat] at hs
    exact (List.pairwise_append.1 hs).2.1
  have hread : readable (b :: bs) = b :: bs :=
    readable_eq_self fun b' hb' => hfit b' (by rw [hblocks']; exact List.mem_append_right _ hb')
  obtain ⟨out, hseek, hlen⟩ := h e.key
  rw [entriesFrom_tableOf hmax e.key hblocks' (by simp) (by rw [hidx]; rfl), hread,
    dropWhile_eq_filter hs'] at hseek
  -- the two sides differ by what is in front of the boundary, and `e` is there
  rw [← Except.ok.inj hseek, List.length_map, hflat, List.filter_append, List.length_append] at hlen
  have hmem : e ∈ (as ++ [a]).flatten.filter fun x => e.key ≤ x.key :=
    List.mem_filter.2 ⟨List.mem_flatten.2 ⟨a, by simp, he⟩, by simp⟩
  have hpos := List.length_pos_of_mem hmem
  omega

/-- The seek to the empty key passes as many entries as were written only if every block is
    read. -/
theorem blocksFit_of_entriesFrom (hs : SortedLe es) (hmax : (tableFile es).length ≤ maxFileSize)
    {out : List Entry} (h : (tableOf es).entriesFrom [] = .ok out) (hlen : out.length = es.length) :
    BlocksFit es := by
  by_cases hes : es = []
  · subst hes
    simp [BlocksFit, blocksOf, cutBlocks]
  obtain ⟨as, bs, hblocks, hbs, hidx⟩ : ∃ as bs, blocksOf es = as ++ bs ∧ bs ≠ [] ∧
      ((tableOf es).findBlockIdx []).getD 0 = as.length := by
    rcases findBlockIdx_spec hs [] with ⟨hnone, -⟩ | ⟨as, b, bs, hblocks, hidx, -, -⟩
    · exact ⟨[], blocksOf es, rfl, mt blocksOf_eq_nil.1 hes, by rw [hnone]; rfl⟩
    · exact ⟨as, b :: bs, hblocks, by simp, by rw [hidx]; rfl⟩
  rw [entriesFrom_tableOf hmax [] hblocks hbs hidx] at h
  have hdrop : es.length ≤ (readable bs).flatten.length := by
    rw [← hlen, ← Except.ok.inj h, List.length_map]
    exact (List.dropWhile_sublist _).length_le
  have hpre := (List.IsPrefix.flatten (readable_isPrefix bs)).length_le
  have hflat := congrArg List.length (congrArg List.flatten hblocks)
  have hne : ∀ b ∈ blocksOf es, b ≠ [] := fun b hb => cutBlocks_ne_nil hb
  rw [flatten_blocksOf, List.flatten_append, List.length_append] at hflat
  have hfull : bs.flatten.length ≤ (readable bs).flatten.length := by omega
  -- nothing is left in front of the block the search takes
  have has : as = [] := by
    by_contra hcons
    obtain ⟨a, as, rfl⟩ := List.exists_cons_of_ne_nil hcons
    have hpos := List.length_pos_of_ne_nil (hne a (by rw [hblocks]; simp))
    rw [List.flatten_cons, List.length_append] at hflat
    omega
  subst has
  intro b hb
  rw [hblocks] at hb hne
  exact blockFits_of_length hne hfull b hb

end Iterate

/-- **When a seek gives the list from the target on.** On the table made of a sorted list,
    iterating from `seek(target)` yields exactly the entries with key at least `target`,
    whatever the target, if and only if the index, the filter and every block come with one
    `pread` each, no tombstone carries a value, and no block boundary separates two versions of
    a key. -/
theorem seek_writeTable_iff (es : List Entry) (hs : SortedLe es) (file : Bytes)
    (hw : writeTable es = some file) :
    (∃ t, SSTable.open file = .ok t ∧
      ∀ target, t.entriesFrom target = .ok (es.filter fun e => target ≤ e.key)) ↔
      TableFits es ∧ (∀ e ∈ es, e.stored = e) ∧ KeysWhole (blocksOf es) := by
  rw [writeTable_eq] at hw
  split at hw
  · rename_i hmax
    obtain rfl := Option.some.inj hw
    have hall : (es.filter fun e => decide ([] ≤ e.key)) = es :=
      List.filter_eq_self.2 fun e _ => decide_eq_true (not_lt.1 (List.not_lt_nil _))
    constructor
    · rintro ⟨t, hopen, hseek⟩
      obtain ⟨hopens, rfl⟩ := (open_tableFile_iff hmax).1 hopen
      have hback := hseek []
      rw [hall] at hback
      have hfit := blocksFit_of_entriesFrom hs hmax hback rfl
      have hwhole := keysWhole_of_entriesFrom hs hfit hmax fun target => ⟨_, hseek target, rfl⟩
      -- with whole keys the seek to the empty key reads the list back entry by entry
      rw [entriesFrom_sorted hs hfit hmax hwhole, hall] at hback
      have hst := List.map_inj_left.1 ((Except.ok.inj hback).trans (List.map_id es).symm)
      exact ⟨⟨hopens, hmax, hfit⟩, fun e he => hst e he, hwhole⟩
    · rintro ⟨hfit, hok, hwhole⟩
      refine ⟨tableOf es, open_tableFile hfit.toOpens hmax, fun target => ?_⟩
      rw [entriesFrom_sorted hs hfit.blocks hmax hwhole]
      have hst : ∀ e ∈ es.filter fun e => decide (target ≤ e.key), e.stored = e :=
        fun e he => hok e (List.mem_of_mem_filter he)
      rw [List.map_congr_left hst, List.map_id']
  · simp at hw

/-- The theorem at two versions of one key in one block. -/
theorem seek_writeTable_iff_two :
    ∃ file t, writeTable [⟨[97], [2], false, 2⟩, ⟨[97], [1], false, 1⟩] = some file ∧
      SSTable.open file = .ok t ∧
      t.entriesFrom [97] = .ok [⟨[97], [2], false, 2⟩, ⟨[97], [1], false, 1⟩] := by
  have hw : writeTable [⟨[97], [2], false, 2⟩, ⟨[97], [1], false, 1⟩] =
      some (tableFile [⟨[97], [2], false, 2⟩, ⟨[97], [1], false, 1⟩]) := by
    rw [writeTable_eq, if_pos (by decide +kernel)]
  obtain ⟨t, hopen, hseek⟩ := (seek_writeTable_iff _ (by decide) _ hw).2
    ⟨by decide +kernel, by decide, by unfold KeysWhole; decide +kernel⟩
  exact ⟨_, t, hw, hopen, by rw [hseek]; rfl⟩

/-- The cut between the two versions of `b` again: the seek to `b` starts behind the newer
    one. -/
theorem seek_splitEntries_misses :
    SortedLe splitEntries ∧ ∃ file t, writeTable splitEntries = some file ∧
      SSTable.open file = .ok t ∧ t.entriesFrom [98] = .ok [⟨[98], [1], false, 2⟩] ∧
      (splitEntries.filter fun e => [98] ≤ e.key) =
        [⟨[98], [2], false, 3⟩, ⟨[98], [1], false, 2⟩] := by
  have hs : SortedLe splitEntries := by decide
  have hfit := tableFits_splitEntries
  have hsplit : blocksOf splitEntries =
      [[⟨[97], List.replicate 4070 0, false, 1⟩, ⟨[98], [2], false, 3⟩]] ++
        [⟨[98], [1], false, 2⟩] :: [] := blocksOf_splitEntries
  have hidx := findBlockIdx_eq hs hsplit (show headKey [⟨[98], [1], false, 2⟩] ≤ [98] from le_rfl)
    (by simp)
  refine ⟨hs, tableFile splitEntries, tableOf splitEntries, ?_,
    open_tableFile hfit.toOpens hfit.file, ?_, ?_⟩
  · rw [writeTable_eq, if_pos hfit.file]
  · rw [entriesFrom_tableOf hfit.file [98] hsplit (by simp) (by rw [hidx]; rfl)]
    rfl
  · decide

end Keystone
