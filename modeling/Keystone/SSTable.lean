/-
  `src/sstable.cpp`: the writer and the reader of a table file, as the code computes them.

  A file is `[block 0]...[block n-1][index][bloom][footer]`. A block is a run of entries
  `[tag][seq][keylen][vallen][key][value]` followed by their CRC; the index has the first key,
  offset and length of each block; the footer is 40 bytes.

  `add` cuts a block when 4096 bytes are buffered and the new key is not the block's *first*
  key. `get` looks into one block only, the last one whose first key is at most the key.

  Reads through raw pointers that the code does not check are `Fault.outOfBounds` here.
  `readBlock` is the loader of the block cache, which is in `Keystone.BlockCache`.
-/
import Keystone.Lib.Frame
import Keystone.Lib.Bisect
import Keystone.Bloom
import Keystone.Entry

namespace Keystone

open Frame

/-- `kMagic`, "KSTB". -/
def kMagic : UInt32 := 0x4B535442

def kFormatVersion : UInt32 := 3

def kFooterSize : Nat := 40

def kBlockTargetSize : Nat := 4096

/-- The largest `off_t`: a write beyond it fails with `EFBIG`. -/
def maxFileSize : Nat := 2 ^ 63 - 1

/-- The most that one `pread` transfers; a longer one comes back short. `write_fully` goes on
    after a short write, so what is written has no such limit. -/
def maxTransfer : Nat := 0x7ffff000

/-- `SSTableWriter::IndexEntry` and `SSTable::IndexEntry`. -/
structure IndexEntry where
  firstKey : Bytes
  offset : UInt64
  length : UInt64
  deriving DecidableEq, Repr

/-- `SSTable::Footer`. -/
structure Footer where
  indexOffset : UInt64
  bloomOffset : UInt64
  entryCount : UInt64
  maxSeq : UInt64
  formatVersion : UInt32
  magic : UInt32
  deriving DecidableEq, Repr

/-! ## The writer -/

/-- `SSTableWriter`; `file` is what has been written to `temp_path_`. Neither counter can
    reach `2^64` before the file outgrows `maxFileSize`, so both are `Nat`. -/
structure SSTableWriter where
  file : Bytes
  blockBuf : Bytes
  blockFirstKey : Bytes
  currentOffset : Nat
  index : List IndexEntry
  entryCount : Nat
  maxSeq : UInt64
  smallestKey : Bytes
  largestKey : Bytes
  keys : List Bytes
  deriving DecidableEq, Repr

namespace SSTableWriter

/-- The constructor. -/
def new : SSTableWriter := ⟨[], [], [], 0, [], 0, 0, [], [], []⟩

/-- `flush_block`. -/
def flushBlock (w : SSTableWriter) : SSTableWriter :=
  if w.blockBuf.isEmpty then w
  else
    let total := w.blockBuf.length + 4
    { w with
      index := w.index ++ [⟨w.blockFirstKey, UInt64.ofNat w.currentOffset, UInt64.ofNat total⟩]
      file := w.file ++ (w.blockBuf ++ putU32Le (crc32 w.blockBuf))
      currentOffset := w.currentOffset + total
      blockBuf := []
      blockFirstKey := [] }

/-- The bytes `add` puts into the block buffer. -/
def encodeEntry (e : Entry) : Bytes :=
  (if e.tombstone then 1 else 0) :: (putU64Le e.seq ++
    (putU32Le (UInt32.ofNat e.key.length) ++
      (putU32Le (if e.tombstone then 0 else UInt32.ofNat e.value.length) ++
        (e.key ++ if e.tombstone then [] else e.value))))

/-- The part of `add` behind the block cut. -/
def append (w : SSTableWriter) (e : Entry) : SSTableWriter :=
  { w with
    blockFirstKey := if w.blockBuf.isEmpty then e.key else w.blockFirstKey
    smallestKey := if w.entryCount = 0 then e.key else w.smallestKey
    largestKey := e.key
    blockBuf := w.blockBuf ++ encodeEntry e
    maxSeq := if e.seq > w.maxSeq then e.seq else w.maxSeq
    keys := w.keys ++ [e.key]
    entryCount := w.entryCount + 1 }

/-- `add`. -/
def add (w : SSTableWriter) (e : Entry) : SSTableWriter :=
  if ¬ w.blockBuf.isEmpty ∧ w.blockBuf.length ≥ kBlockTargetSize ∧ e.key ≠ w.blockFirstKey then
    w.flushBlock.append e
  else w.append e

/-- One entry of the index block. -/
def encodeIndexEntry (ie : IndexEntry) : Bytes :=
  putU32Le (UInt32.ofNat ie.firstKey.length) ++ (ie.firstKey ++
    (putU64Le ie.offset ++ putU64Le ie.length))

/-- The footer bytes. -/
def encodeFooter (f : Footer) : Bytes :=
  putU64Le f.indexOffset ++ (putU64Le f.bloomOffset ++ (putU64Le f.entryCount ++
    (putU64Le f.maxSeq ++ (putU32Le f.formatVersion ++ putU32Le f.magic))))

/-- `finish`: the whole file, or `none` when a write fails because the file gets too large. -/
def finish (w : SSTableWriter) : Option Bytes :=
  let w := w.flushBlock
  let indexOffset := w.currentOffset
  let indexSize := (w.index.map fun ie => 4 + ie.firstKey.length + 16).sum
  let bloomOffset := indexOffset + indexSize
  let bloom := (Bloom.new w.keys.length 10).addAll w.keys
  let file := w.file ++ (w.index.flatMap encodeIndexEntry ++ (bloom.serialize ++
    encodeFooter ⟨UInt64.ofNat indexOffset, UInt64.ofNat bloomOffset, UInt64.ofNat w.entryCount,
      w.maxSeq, kFormatVersion, kMagic⟩))
  if file.length ≤ maxFileSize then some file else none

/-- The loop of `DB::flush` and of a compaction output: `add` every entry. -/
def addAll (w : SSTableWriter) (es : List Entry) : SSTableWriter := es.foldl add w

end SSTableWriter

/-- The file made by `add`-ing a list and `finish`. -/
def writeTable (es : List Entry) : Option Bytes := (SSTableWriter.new.addAll es).finish

/-! ## The reader -/

/-- `SSTable`: `fd_`, `footer_`, `index_`, `bloom_`. -/
structure SSTable where
  file : Bytes
  footer : Footer
  index : List IndexEntry
  bloom : Option Bloom
  deriving DecidableEq, Repr

namespace SSTable

/-- One call of `pread` for `len` bytes at `off`: `none` unless it returns all of them. An offset
    that is negative as `off_t` is refused by the system. -/
def pread (file : Bytes) (len off : UInt64) : Option Bytes :=
  if off.toNat ≤ maxFileSize ∧
      (len = 0 ∨ len.toNat ≤ maxTransfer ∧ off.toNat + len.toNat ≤ file.length) then
    some ((file.drop off.toNat).take len.toNat)
  else none

/-- `std::vector<uint8_t> buf(len)`. -/
def allocate (len : UInt64) : Except Fault Unit :=
  if len.toNat > maxFileSize then
    .error (.thrown "cannot create std::vector larger than max_size()")
  else .ok ()

/-- `get_u64_le` and `get_u32_le` over the 40 footer bytes. -/
def parseFooter (fbuf : Bytes) : Footer :=
  ⟨getU64Le fbuf, getU64Le (fbuf.drop 8), getU64Le (fbuf.drop 16), getU64Le (fbuf.drop 24),
    getU32Le (fbuf.drop 32), getU32Le (fbuf.drop 36)⟩

/-- One turn of the index loop of `open`; `none` ends it. -/
def readIndexEntry (ibuf : Bytes) : Option (IndexEntry × Bytes) := do
  let (klen, ibuf) ← readFully 4 ibuf
  let (key, ibuf) ← readFully (getU32Le klen).toNat ibuf
  let (offlen, ibuf) ← readFully 16 ibuf
  some (⟨key, getU64Le offlen, getU64Le (offlen.drop 8)⟩, ibuf)

/-- The bloom part of `open`; an offset of zero means that there is none. -/
def loadBloom (file : Bytes) (footer : Footer) : Except Fault (Option Bloom) :=
  if footer.bloomOffset = 0 then .ok none
  else do
    let bloomLen := UInt64.ofNat file.length - UInt64.ofNat kFooterSize - footer.bloomOffset
    allocate bloomLen
    match pread file bloomLen footer.bloomOffset with
    | none => .error (.thrown "SSTable::open: cannot read bloom")
    | some data => do
      let bloom ← Bloom.load data
      .ok (some bloom)

/-- `SSTable::open`. -/
def «open» (file : Bytes) : Except Fault SSTable :=
  if file.length < kFooterSize then .error (.thrown "SSTable::open: file too small")
  else
    let footer := parseFooter (file.drop (file.length - kFooterSize))
    if footer.magic ≠ kMagic then .error (.thrown "SSTable::open: bad magic")
    else do
      let indexEnd := if footer.bloomOffset ≠ 0 then footer.bloomOffset
        else UInt64.ofNat file.length - UInt64.ofNat kFooterSize
      let indexLen := indexEnd - footer.indexOffset
      allocate indexLen
      match (if indexLen = 0 then some [] else pread file indexLen footer.indexOffset) with
      | none => .error (.thrown "SSTable::open: cannot read index")
      | some ibuf => do
        let index := records readIndexEntry ibuf
        let bloom ← loadBloom file footer
        .ok ⟨file, footer, index, bloom⟩

/-- `may_contain`. -/
def mayContain (t : SSTable) (key : Bytes) : Bool :=
  match t.bloom with
  | none => true
  | some b => b.mayContain key

/-- `entry_count`. -/
def entryCount (t : SSTable) : UInt64 := t.footer.entryCount

/-- `max_seq`. -/
def maxSeq (t : SSTable) : UInt64 := t.footer.maxSeq

/-- `find_block_idx`; `none` is -1. -/
def findBlockIdx (t : SSTable) (key : Bytes) : Option Nat :=
  let starts := fun i => (t.index[i]?.map IndexEntry.firstKey).getD []
  if t.index.isEmpty ∨ starts 0 > key then none
  else some (Bisect.lastTrue (fun i => starts i ≤ key) t.index.length 0 t.index.length)

/-- `read_block`, without the cache. -/
def readBlock (t : SSTable) (ie : IndexEntry) : Except Fault Bytes := do
  allocate ie.length
  let buf := (pread t.file ie.length ie.offset).getD []
  if t.footer.formatVersion ≥ 3 ∧ buf.length ≥ 4 then
    let payloadLen := buf.length - 4
    let stored := getU32Le (buf.drop payloadLen)
    if stored ≠ crc32 (buf.take payloadLen) then
      .error (.thrown "SSTable block checksum mismatch")
    else .ok (buf.take payloadLen)
  else .ok buf

/-- `entry_hdr`: format 1 has no sequence numbers. -/
def entryHdr (version : UInt32) : Nat := if version ≥ 2 then 17 else 9

/-- The fields in front of an entry's key. -/
structure EntryHeader where
  tag : UInt8
  seq : UInt64
  keylen : Nat
  vallen : Nat
  deriving DecidableEq, Repr

/-- The header at the front of `bs`, which has at least `entryHdr version` bytes. -/
def parseHeader (version : UInt32) (bs : Bytes) : EntryHeader :=
  let lens := bs.drop (entryHdr version - 8)
  ⟨bs.headD 0, if version ≥ 2 then getU64Le (bs.drop 1) else 0,
    (getU32Le lens).toNat, (getU32Le (lens.drop 4)).toNat⟩

/-- The loop of `get` over the rest of a block. -/
def getLoop (version : UInt32) (key : Bytes) (snapshotSeq : UInt64) :
    Nat → Bytes → LookupResult
  | 0, _ => .notFound
  | fuel + 1, block =>
    if block.length < entryHdr version then .notFound
    else
      let h := parseHeader version block
      let body := block.drop (entryHdr version)
      if h.keylen + h.vallen > body.length then .notFound
      else
        let entryKey := body.take h.keylen
        let body := body.drop h.keylen
        if entryKey = key then
          if h.seq ≤ snapshotSeq then
            if h.tag = 1 then .deleted else .found (body.take h.vallen)
          else getLoop version key snapshotSeq fuel (body.drop h.vallen)
        else if entryKey > key then .notFound
        else getLoop version key snapshotSeq fuel (body.drop h.vallen)

/-- `SSTable::get`. Every entry takes a byte, so the block's length bounds the turns. -/
def get (t : SSTable) (key : Bytes) (snapshotSeq : UInt64) : Except Fault LookupResult :=
  if ¬ t.mayContain key then .ok .notFound
  else
    match (t.findBlockIdx key).bind (t.index[·]?) with
    | none => .ok .notFound
    | some ie => do
      let block ← t.readBlock ie
      .ok (getLoop t.footer.formatVersion key snapshotSeq (block.length + 1) block)

/-! ## The iterator -/

/-- `SSTable::Iterator`; `rest` is `block_` from `pos_` on. -/
structure Iterator where
  blockIdx : Nat
  rest : Bytes
  valid : Bool
  current : Entry
  deriving DecidableEq, Repr

/-- The default-constructed iterator, `end()`. -/
def Iterator.nil : Iterator := ⟨0, [], false, ⟨[], [], false, 0⟩⟩

/-- `load_block`. -/
def loadBlock (t : SSTable) (it : Iterator) : Except Fault Iterator :=
  match t.index[it.blockIdx]? with
  | none => .ok { it with valid := false }
  | some ie => do
    let block ← t.readBlock ie
    if block.isEmpty then .ok { it with valid := false } else .ok { it with rest := block }

/-- The step to the next block at the end of one, as `parse_entry` and the seeking
    constructor make it. -/
def nextBlock (t : SSTable) (it : Iterator) : Except Fault Iterator :=
  if it.rest.length < entryHdr t.footer.formatVersion then
    t.loadBlock { it with blockIdx := it.blockIdx + 1 }
  else .ok it

/-- `parse_entry`. After the step to the next block nothing is checked. -/
def parseEntry (t : SSTable) (it : Iterator) : Except Fault Iterator :=
  if ¬ it.valid then .ok it
  else do
    let it ← t.nextBlock it
    if ¬ it.valid then .ok it
    else if it.rest.length < entryHdr t.footer.formatVersion then .error .outOfBounds
    else
      let h := parseHeader t.footer.formatVersion it.rest
      let body := it.rest.drop (entryHdr t.footer.formatVersion)
      if body.length < h.keylen + h.vallen then .error .outOfBounds
      else .ok { it with
        current := ⟨body.take h.keylen, (body.drop h.keylen).take h.vallen, h.tag = 1, h.seq⟩
        rest := body.drop (h.keylen + h.vallen) }

/-- `Iterator(t, block_idx)`. -/
def Iterator.at (t : SSTable) (blockIdx : Nat) : Except Fault Iterator := do
  let it ← t.loadBlock ⟨blockIdx, [], true, ⟨[], [], false, 0⟩⟩
  if it.valid then t.parseEntry it else .ok it

/-- The loop of the seeking constructor. It passes over an entry with `pos_ += keylen + vallen`,
    a sum of two `uint32_t`. -/
def seekLoop (t : SSTable) (target : Bytes) : Nat → Iterator → Except Fault Iterator
  | 0, it => .ok { it with valid := false }
  | fuel + 1, it => do
    let it ← t.nextBlock it
    if ¬ it.valid then .ok it
    else if it.rest.length < entryHdr t.footer.formatVersion then .error .outOfBounds
    else
      let h := parseHeader t.footer.formatVersion it.rest
      let body := it.rest.drop (entryHdr t.footer.formatVersion)
      if h.keylen + h.vallen > body.length then .ok { it with valid := false }
      else if body.take h.keylen ≥ target then t.parseEntry it
      else t.seekLoop target fuel { it with rest := body.drop ((h.keylen + h.vallen) % 2 ^ 32) }

/-- A bound on the number of entries an iterator can pass: each takes a byte of its block. -/
def iterFuel (t : SSTable) : Nat := (t.index.length + 1) * (t.file.length + 1)

/-- `Iterator(t, block_idx, seek_target)`. -/
def Iterator.seeking (t : SSTable) (blockIdx : Nat) (target : Bytes) : Except Fault Iterator := do
  let it ← t.loadBlock ⟨blockIdx, [], true, ⟨[], [], false, 0⟩⟩
  if it.valid then t.seekLoop target t.iterFuel it else .ok it

/-- `begin`. -/
def begin (t : SSTable) : Except Fault Iterator :=
  if t.index.isEmpty then .ok .nil else Iterator.at t 0

/-- `seek`. -/
def seek (t : SSTable) (target : Bytes) : Except Fault Iterator :=
  if t.index.isEmpty then .ok .nil
  else Iterator.seeking t ((t.findBlockIdx target).getD 0) target

/-- The entries an iterator goes through: `for (; it != end; ++it)`. -/
def drain (t : SSTable) : Nat → Iterator → Except Fault (List Entry)
  | 0, _ => .ok []
  | fuel + 1, it =>
    if ¬ it.valid then .ok []
    else do
      let it' ← t.parseEntry it
      let es ← t.drain fuel it'
      .ok (it.current :: es)

/-- All entries from `begin()` on: an `SSTableMergeSource`. -/
def entries (t : SSTable) : Except Fault (List Entry) := do
  let it ← t.begin
  t.drain t.iterFuel it

/-- All entries from `seek(target)` on: an `SSTableMergeSource` with a seek target. -/
def entriesFrom (t : SSTable) (target : Bytes) : Except Fault (List Entry) := do
  let it ← t.seek target
  t.drain t.iterFuel it

end SSTable

end Keystone
