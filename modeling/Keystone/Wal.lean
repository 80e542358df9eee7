/-
  `src/wal.cpp`: the write-ahead log.

  A record is framed `[crc32][type][seq][keylen][vallen][key][value]`; the CRC covers what
  follows it. `replay` reads records until one is short, over a length limit or fails its
  CRC, and ignores the rest.

  * `takesBack_readRecord`: a record within `maxFieldLen` is read back from the front of any log.
  * `refusesTorn_readRecord`: no strict prefix of a record is read, whatever its bytes.
  * `replay_append`, `replay_torn`: what `replay` returns on a log written by `appendBatch`,
    whole or cut at any byte.
-/
import Keystone.Lib.Frame
import Keystone.Coding

namespace Keystone

open Frame

/-- `enum class RecType : uint8_t`. A value read from a log can be any byte. -/
structure RecType where
  code : UInt8
  deriving DecidableEq, Repr

namespace RecType

def put : RecType := ⟨1⟩

def delete : RecType := ⟨2⟩

end RecType

namespace Wal

/-- `WAL::Record`. -/
structure Record where
  type : RecType
  seq : UInt64
  key : Bytes
  value : Bytes
  deriving DecidableEq, Repr

/-- The body of a record: everything the CRC covers. -/
def recordBody (r : Record) : Bytes :=
  r.type.code :: (putU64Le r.seq ++ putU32Le (UInt32.ofNat r.key.length) ++
    putU32Le (UInt32.ofNat r.value.length) ++ r.key ++ r.value)

/-- One framed record, as `append_batch` lays it out in its buffer. -/
def encodeRecord (r : Record) : Bytes := putU32Le (crc32 (recordBody r)) ++ recordBody r

/-- `WAL::append_batch` on the log file. An empty batch writes nothing. -/
def appendBatch (log : Bytes) (records : List Record) : Bytes :=
  log ++ records.flatMap encodeRecord

/-- The limit `replay` puts on both lengths: 64 MiB. -/
def maxFieldLen : Nat := 64 * 1024 * 1024

/-- One turn of the loop of `WAL::replay`: `none` is each of its `break`s. -/
def readRecord (fd : Bytes) : Option (Record × Bytes) := do
  let (crcBuf, fd) ← readFully 4 fd
  let (header, fd) ← readFully 17 fd
  let seq := getU64Le (header.drop 1)
  let keylen := (getU32Le (header.drop 9)).toNat
  let vallen := (getU32Le (header.drop 13)).toNat
  if keylen > maxFieldLen ∨ vallen > maxFieldLen then none
  else
    let (key, fd) ← readFully keylen fd
    let (value, fd) ← readFully vallen fd
    if crc32 (header ++ key ++ value) ≠ getU32Le crcBuf then none
    else some (⟨⟨header.headD 0⟩, seq, key, value⟩, fd)

/-- `WAL::replay`; a missing file has no records. -/
def replay (path : Option Bytes) : List Record :=
  match path with
  | none => []
  | some fd => records readRecord fd

/-! ## One record -/

/-- The records `replay` admits. -/
def Record.Fits (r : Record) : Prop :=
  r.key.length ≤ maxFieldLen ∧ r.value.length ≤ maxFieldLen

theorem recordBody_length (r : Record) :
    (recordBody r).length = 17 + r.key.length + r.value.length := by
  simp [recordBody]
  omega

/-- The length `DB::open` adds up to find the end of the valid log. -/
theorem encodeRecord_length (r : Record) :
    (encodeRecord r).length = 21 + r.key.length + r.value.length := by
  simp [encodeRecord, recordBody_length]
  omega

/-- The 17 header bytes of a record. -/
def recordHeader (r : Record) : Bytes :=
  r.type.code :: (putU64Le r.seq ++ putU32Le (UInt32.ofNat r.key.length) ++
    putU32Le (UInt32.ofNat r.value.length))

theorem recordHeader_length (r : Record) : (recordHeader r).length = 17 := by
  simp [recordHeader]

theorem recordBody_eq (r : Record) : recordBody r = recordHeader r ++ r.key ++ r.value := by
  simp [recordBody, recordHeader]

theorem recordHeader_drop_one (r : Record) :
    (recordHeader r).drop 1 = putU64Le r.seq ++ (putU32Le (UInt32.ofNat r.key.length) ++
      putU32Le (UInt32.ofNat r.value.length)) := by
  simp [recordHeader]

theorem recordHeader_drop_nine (r : Record) :
    (recordHeader r).drop 9 = putU32Le (UInt32.ofNat r.key.length) ++
      putU32Le (UInt32.ofNat r.value.length) := by
  have : (recordHeader r).drop 9 = ((recordHeader r).drop 1).drop 8 := by rw [List.drop_drop]
  rw [this, recordHeader_drop_one, List.drop_left' (putU64Le_length _)]

theorem recordHeader_drop_thirteen (r : Record) :
    (recordHeader r).drop 13 = putU32Le (UInt32.ofNat r.value.length) := by
  have : (recordHeader r).drop 13 = ((recordHeader r).drop 9).drop 4 := by rw [List.drop_drop]
  rw [this, recordHeader_drop_nine, List.drop_left' (putU32Le_length _)]

/-- The lengths fit their four-byte fields. -/
def Record.Short (r : Record) : Prop := r.key.length < 2 ^ 32 ∧ r.value.length < 2 ^ 32

theorem Record.Fits.short {r : Record} (h : r.Fits) : r.Short := by
  obtain ⟨h1, h2⟩ := h
  unfold maxFieldLen at h1 h2
  exact ⟨by omega, by omega⟩

/-- What `readRecord` does once the four CRC bytes and the header of `r` are read. -/
theorem readRecord_header {r : Record} (h : r.Short) (crc : UInt32) (fd : Bytes) :
    readRecord (putU32Le crc ++ (recordHeader r ++ fd)) =
      if r.key.length > maxFieldLen ∨ r.value.length > maxFieldLen then none
      else (do
        let (key, fd) ← readFully r.key.length fd
        let (value, fd) ← readFully r.value.length fd
        if crc32 (recordHeader r ++ key ++ value) ≠ crc then none
        else some (⟨r.type, r.seq, key, value⟩, fd)) := by
  unfold readRecord
  rw [readFully_append (putU32Le_length _)]
  simp only [Option.bind_eq_bind, Option.bind_some]
  rw [readFully_append (recordHeader_length r)]
  simp only [Option.bind_some, recordHeader_drop_one, recordHeader_drop_nine,
    recordHeader_drop_thirteen, getU64Le_putU64Le, getU32Le_putU32Le, getU32Le_putU32Le',
    toNat_u32_of_lt h.1, toNat_u32_of_lt h.2]
  rfl

theorem encodeRecord_append (r : Record) (rest : Bytes) :
    encodeRecord r ++ rest = putU32Le (crc32 (recordBody r)) ++
      (recordHeader r ++ (r.key ++ (r.value ++ rest))) := by
  simp [encodeRecord, recordBody_eq]

theorem takesBack_readRecord {r : Record} (h : r.Fits) :
    TakesBack readRecord encodeRecord r := by
  intro rest
  have hlim : ¬ (r.key.length > maxFieldLen ∨ r.value.length > maxFieldLen) := by
    obtain ⟨h1, h2⟩ := h
    omega
  rw [encodeRecord_append, readRecord_header h.short, if_neg hlim, readFully_append rfl]
  simp only [Option.bind_eq_bind, Option.bind_some]
  rw [readFully_append rfl]
  simp [recordBody_eq]

/-- A record over the limit ends the log, whatever is behind it. -/
theorem readRecord_long {r : Record} (h : r.Short) (hlong : ¬ r.Fits) (rest : Bytes) :
    readRecord (encodeRecord r ++ rest) = none := by
  rw [encodeRecord_append, readRecord_header h, if_pos]
  unfold Record.Fits at hlong
  omega

/-- The header of the record that was read is the 17 bytes it was read from. -/
theorem recordHeader_read {header : Bytes} (h : header.length = 17) {r : Record}
    (ht : r.type.code = header.headD 0) (hs : r.seq = getU64Le (header.drop 1))
    (hk : r.key.length = (getU32Le (header.drop 9)).toNat)
    (hv : r.value.length = (getU32Le (header.drop 13)).toNat) : recordHeader r = header := by
  obtain ⟨b, t, rfl⟩ := List.exists_of_length_succ header h
  have hlen : t.length = 16 := by simpa using h
  have h13 : (t.drop 12).take 4 = t.drop 12 := List.take_of_length_le (by simp [hlen])
  simp only [List.drop_succ_cons, List.headD_cons, List.drop_zero] at ht hs hk hv
  rw [recordHeader, ht, hs, hk, hv, UInt32.ofNat_toNat, UInt32.ofNat_toNat,
    putU64Le_getU64Le (by omega), putU32Le_getU32Le (by simp; omega),
    putU32Le_getU32Le (by simp; omega), h13, List.append_assoc,
    show t.drop 12 = (t.drop 8).drop 4 by rw [List.drop_drop], List.take_append_drop,
    List.take_append_drop]

/-- What `readRecord` accepts is the encoding of the record it returns. -/
theorem readRecord_eq_some {bs rest : Bytes} {r : Record} (h : readRecord bs = some (r, rest)) :
    bs = encodeRecord r ++ rest ∧ r.Fits := by
  unfold readRecord at h
  simp only [Option.bind_eq_bind, Option.bind_eq_some_iff, Prod.exists] at h
  obtain ⟨crcBuf, fd1, h1, header, fd2, h2, h3⟩ := h
  obtain ⟨rfl, hcrc⟩ := readFully_eq_some h1
  obtain ⟨rfl, hheader⟩ := readFully_eq_some h2
  split at h3
  · simp at h3
  · rename_i hlim
    simp only [Option.bind_eq_some_iff, Prod.exists] at h3
    obtain ⟨key, fd3, h3, value, fd4, h4, h5⟩ := h3
    obtain ⟨rfl, hkey⟩ := readFully_eq_some h3
    obtain ⟨rfl, hvalue⟩ := readFully_eq_some h4
    split at h5
    · simp at h5
    · rename_i hsum
      obtain ⟨rfl, rfl⟩ := Prod.mk.inj (Option.some.inj h5)
      have hread := recordHeader_read hheader
        (r := ⟨⟨header.headD 0⟩, getU64Le (header.drop 1), key, value⟩) rfl rfl hkey hvalue
      refine ⟨?_, by simp only [hkey]; omega, by simp only [hvalue]; omega⟩
      rw [encodeRecord, recordBody_eq, hread, not_not.1 hsum, putU32Le_getU32Le hcrc.ge,
        List.take_of_length_le hcrc.le]
      simp

theorem consumes_readRecord : Consumes readRecord := by
  intro bs r rest h
  rw [(readRecord_eq_some h).1, List.length_append, encodeRecord_length]
  omega

theorem reencodes_readRecord : Reencodes readRecord encodeRecord :=
  fun _ _ _ h => (readRecord_eq_some h).1

/-- A record cut short is refused, whatever its bytes. -/
theorem refusesTorn_readRecord {r : Record} (h : r.Fits) :
    RefusesTorn readRecord encodeRecord r :=
  (reencodes_readRecord.extends fun _ _ _ hr => takesBack_readRecord (readRecord_eq_some hr).2).refusesTorn
    (takesBack_readRecord h)

theorem readRecord_nil : readRecord [] = none := rfl

/-! ## Whole logs -/

/-- The log is its records and a rest that is never read. -/
theorem replay_split (f : Bytes) :
    ∃ rest, f = (replay (some f)).flatMap encodeRecord ++ rest ∧ readRecord rest = none :=
  records_split consumes_readRecord reencodes_readRecord f

/-- Only records within the limits are returned. -/
theorem replay_fits (path : Option Bytes) : ∀ r ∈ replay path, r.Fits := by
  cases path with
  | none => simp [replay]
  | some f => exact forall_mem_records consumes_readRecord fun _ _ _ h => (readRecord_eq_some h).2

theorem replay_append {rs : List Record} (h : ∀ r ∈ rs, r.Fits) :
    replay (some (rs.flatMap encodeRecord)) = rs :=
  records_flatMap consumes_readRecord (fun r hr => takesBack_readRecord (h r hr)) readRecord_nil

/-- A log whose last batch is cut at any byte is replayed up to a prefix of that batch. -/
theorem replay_torn {rs batch : List Record} (h : ∀ r ∈ rs, r.Fits) (hb : ∀ r ∈ batch, r.Fits)
    {p : Bytes} (hp : p <+: batch.flatMap encodeRecord) :
    ∃ done, done <+: batch ∧ replay (some (rs.flatMap encodeRecord ++ p)) = rs ++ done := by
  obtain ⟨done, rest, t, rfl, rfl, ht⟩ := prefix_flatMap hp
  refine ⟨done, List.prefix_append done rest, ?_⟩
  have hd : ∀ r ∈ rs ++ done, TakesBack readRecord encodeRecord r := by
    intro r hr
    rcases List.mem_append.1 hr with hr | hr
    · exact takesBack_readRecord (h r hr)
    · exact takesBack_readRecord (hb r (List.mem_append_left rest hr))
  rw [replay, ← List.append_assoc, ← List.flatMap_append]
  rcases ht with rfl | ⟨a, l, rfl, hpre, hne⟩
  · rw [List.append_nil]
    exact records_flatMap consumes_readRecord hd readRecord_nil
  · have ha : a.Fits := hb a (by simp)
    exact records_torn consumes_readRecord hd (refusesTorn_readRecord ha) hpre hne

end Wal

end Keystone
