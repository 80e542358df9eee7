/-
  `src/manifest.cpp`: the MANIFEST, a log of full snapshots of the live files.

  A record is `[crc32][count][entry 0]...[entry count-1]`, an entry
  `[number][level][sklen][smallest_key][lklen][largest_key]`. There is no length prefix:
  `load_latest` finds the end of a record by parsing its entries. It parses them through a
  scratch buffer of `16 * count + 256 KiB` bytes with two helpers: `read_u32` gives up when
  the buffer is full, `read_bytes` makes it larger.

  * `ReaderOk`: the exact set of snapshots that survive this parse.
  * `readSnapshot_encode`: a snapshot the writer wrote is read back from the front of any
    file if it is `ReaderOk`, and refused otherwise.
  * `readSnapshot_some`: whatever is read, from any bytes, is the record of a `ReaderOk`
    snapshot.
  * `loadLatest_appendAll_iff`: when the last of a sequence of snapshots is what is loaded.
-/
import Keystone.Lib.Frame
import Keystone.Coding

namespace Keystone

open Frame

/-- `ManifestEntry`; `int` is 32 bits. -/
structure ManifestEntry where
  number : Int32
  level : Int32
  smallestKey : Bytes
  largestKey : Bytes
  deriving DecidableEq, Repr

namespace Manifest

/-- The bytes of one entry in the record buffer. The lengths are cast to `uint32_t` and only
    that many key bytes are copied. -/
def encodeEntry (f : ManifestEntry) : Bytes :=
  putU32Le f.number.toUInt32 ++ (putU32Le f.level.toUInt32 ++
    (putU32Le (UInt32.ofNat f.smallestKey.length) ++
      (f.smallestKey.take (UInt32.ofNat f.smallestKey.length).toNat ++
        (putU32Le (UInt32.ofNat f.largestKey.length) ++
          f.largestKey.take (UInt32.ofNat f.largestKey.length).toNat))))

/-- `body_len` of `Manifest::append_snapshot`. -/
def bodyLen (files : List ManifestEntry) : Nat :=
  4 + (files.map fun f =>
    4 + 4 + 4 + f.smallestKey.length + 4 + f.largestKey.length).sum

/-- The record body: what was copied into the zero-initialised buffer of `bodyLen` bytes. -/
def snapshotBody (files : List ManifestEntry) : Bytes :=
  let written := putU32Le (UInt32.ofNat files.length) ++ files.flatMap encodeEntry
  written ++ List.replicate (bodyLen files - written.length) 0

/-- The record `Manifest::append_snapshot` writes. -/
def encodeSnapshot (files : List ManifestEntry) : Bytes :=
  putU32Le (crc32 (snapshotBody files)) ++ snapshotBody files

/-- `Manifest::open` (`O_APPEND | O_CREAT`) followed by `append_snapshot`. -/
def appendSnapshot (path : Option Bytes) (files : List ManifestEntry) : Option Bytes :=
  some (path.getD [] ++ encodeSnapshot files)

/-- A sequence of successful `append_snapshot` calls. -/
def appendAll (path : Option Bytes) (snaps : List (List ManifestEntry)) : Option Bytes :=
  snaps.foldl appendSnapshot path

/-! ## The reader -/

/-- The state of the parse of one record: the unread input, the bytes put into `rest` so far
    (`rest_read` of them) and `rest.size()`. -/
structure Reader where
  input : Bytes
  rest : Bytes
  restSize : Nat

/-- The lambda `read_u32`. -/
def Reader.readU32 (r : Reader) : Option (UInt32 × Reader) :=
  if r.rest.length + 4 > r.restSize then none
  else do
    let (tmp, input) ← readFully 4 r.input
    some (getU32Le tmp, ⟨input, r.rest ++ tmp, r.restSize⟩)

/-- The lambda `read_bytes`. -/
def Reader.readBytes (r : Reader) (n : Nat) : Option (Bytes × Reader) :=
  if n = 0 then some ([], r)
  else do
    let restSize := if r.rest.length + n > r.restSize then r.rest.length + n else r.restSize
    let (out, input) ← readFully n r.input
    some (out, ⟨input, r.rest ++ out, restSize⟩)

/-- One turn of the entry loop. -/
def Reader.readEntry (r : Reader) : Option (ManifestEntry × Reader) := do
  let (num, r) ← r.readU32
  let (level, r) ← r.readU32
  let (skLen, r) ← r.readU32
  let (sk, r) ← r.readBytes skLen.toNat
  let (lkLen, r) ← r.readU32
  let (lk, r) ← r.readBytes lkLen.toNat
  some (⟨num.toInt32, level.toInt32, sk, lk⟩, r)

/-- The entry loop. -/
def Reader.readEntries : Nat → Reader → Option (List ManifestEntry × Reader)
  | 0, r => some ([], r)
  | count + 1, r => do
    let (e, r) ← r.readEntry
    let (es, r) ← Reader.readEntries count r
    some (e :: es, r)

/-- `64u * 1024`, the reader's limit on `count`. -/
def maxCount : Nat := 64 * 1024

/-- The slack of the scratch buffer, `256 * 1024`. -/
def restSlack : Nat := 256 * 1024

/-- One turn of the loop of `Manifest::load_latest`: `none` is each of its `break`s. -/
def readSnapshot (fd : Bytes) : Option (List ManifestEntry × Bytes) := do
  let (crcBuf, fd) ← readFully 4 fd
  let (countBuf, fd) ← readFully 4 fd
  let count := (getU32Le countBuf).toNat
  if count > maxCount then none
  else
    let (snapshot, r) ← Reader.readEntries count ⟨fd, [], count * 16 + restSlack⟩
    if crc32 (countBuf ++ r.rest) ≠ getU32Le crcBuf then none
    else some (snapshot, r.input)

/-- `Manifest::load_latest`: the last record read before the first `break`. -/
def loadLatest (path : Option Bytes) : List ManifestEntry :=
  match path with
  | none => []
  | some fd => (records readSnapshot fd).getLastD []

/-! ## Reading one entry back -/

/-- Key lengths that fit the `uint32_t` length fields. -/
def EntryFits (f : ManifestEntry) : Prop :=
  f.smallestKey.length < 2 ^ 32 ∧ f.largestKey.length < 2 ^ 32

theorem encodeEntry_of_fits {f : ManifestEntry} (h : EntryFits f) :
    encodeEntry f = putU32Le f.number.toUInt32 ++ (putU32Le f.level.toUInt32 ++
      (putU32Le (UInt32.ofNat f.smallestKey.length) ++ (f.smallestKey ++
        (putU32Le (UInt32.ofNat f.largestKey.length) ++ f.largestKey)))) := by
  unfold encodeEntry
  rw [toNat_u32_of_lt h.1, toNat_u32_of_lt h.2, List.take_length, List.take_length]

theorem encodeEntry_length {f : ManifestEntry} (h : EntryFits f) :
    (encodeEntry f).length = 16 + f.smallestKey.length + f.largestKey.length := by
  rw [encodeEntry_of_fits h]
  simp
  omega

theorem readU32_put (v : UInt32) (input rest : Bytes) (size : Nat) :
    Reader.readU32 ⟨putU32Le v ++ input, rest, size⟩ =
      if rest.length + 4 > size then none
      else some (v, ⟨input, rest ++ putU32Le v, size⟩) := by
  unfold Reader.readU32
  split
  · rfl
  · rw [readFully_append (putU32Le_length v)]
    simp

/-- The buffer size after `read_bytes n` on a buffer holding `len` bytes. -/
def grown (len n size : Nat) : Nat := if n = 0 then size else max size (len + n)

theorem readBytes_append (key input rest : Bytes) (size : Nat) :
    Reader.readBytes ⟨key ++ input, rest, size⟩ key.length =
      some (key, ⟨input, rest ++ key, grown rest.length key.length size⟩) := by
  unfold Reader.readBytes grown
  by_cases h0 : key.length = 0
  · have : key = [] := List.eq_nil_of_length_eq_zero h0
    subst this
    simp
  · rw [if_neg h0, if_neg h0]
    simp only [Option.bind_eq_bind]
    rw [readFully_append rfl]
    simp only [Option.bind_some, Option.some.injEq, Prod.mk.injEq, true_and, Reader.mk.injEq]
    split <;> omega

/-- The bytes of one entry up to the end of its `lklen` field: the last point at which
    `read_u32` looks at the size of the buffer. -/
def headLen (f : ManifestEntry) : Nat := 16 + f.smallestKey.length

/-- An entry is read exactly when the buffer reaches to the end of its `lklen` field. -/
theorem readEntry_encode {f : ManifestEntry} (h : EntryFits f) (input rest : Bytes) (size : Nat) :
    Reader.readEntry ⟨encodeEntry f ++ input, rest, size⟩ =
      if rest.length + headLen f > size then none
      else some (f, ⟨input, rest ++ encodeEntry f,
        grown (rest.length + headLen f) f.largestKey.length size⟩) := by
  have hs := toNat_u32_of_lt h.1
  have hl := toNat_u32_of_lt h.2
  unfold Reader.readEntry headLen
  rw [encodeEntry_of_fits h]
  simp only [List.append_assoc]
  rw [readU32_put]
  by_cases h1 : rest.length + 4 > size
  · rw [if_pos h1, if_pos (by omega)]
    rfl
  rw [if_neg h1]
  simp only [Option.bind_eq_bind, Option.bind_some]
  rw [readU32_put]
  simp only [List.length_append, putU32Le_length]
  by_cases h2 : rest.length + 4 + 4 > size
  · rw [if_pos h2, if_pos (by omega)]
    rfl
  rw [if_neg h2]
  simp only [Option.bind_some]
  rw [readU32_put]
  simp only [List.length_append, putU32Le_length]
  by_cases h3 : rest.length + 4 + 4 + 4 > size
  · rw [if_pos h3, if_pos (by omega)]
    rfl
  rw [if_neg h3]
  simp only [Option.bind_some, hs]
  rw [readBytes_append]
  simp only [Option.bind_some, List.length_append, putU32Le_length]
  rw [readU32_put]
  simp only [List.length_append, putU32Le_length]
  -- `read_bytes` has made the buffer just large enough for the key, so a key that did not
  -- fit makes the next `read_u32` give up
  have hg : (rest.length + 4 + 4 + 4 + f.smallestKey.length + 4 >
      grown (rest.length + 4 + 4 + 4) f.smallestKey.length size) ↔
      rest.length + (16 + f.smallestKey.length) > size := by
    unfold grown
    split <;> omega
  by_cases h4 : rest.length + (16 + f.smallestKey.length) > size
  · rw [if_pos (hg.2 h4), if_pos h4]
    rfl
  have hsize : grown (rest.length + 4 + 4 + 4) f.smallestKey.length size = size := by
    unfold grown
    split
    · rfl
    · omega
  rw [if_neg (fun hc => h4 (hg.1 hc)), if_neg h4, hsize]
  simp only [Option.bind_some, hl]
  rw [readBytes_append]
  simp only [Option.bind_some, List.append_assoc, List.length_append, putU32Le_length,
    Option.some.injEq, Prod.mk.injEq, Reader.mk.injEq, true_and]
  refine ⟨rfl, ?_⟩
  congr 1
  omega

/-! ## Reading one record back -/

/-- The bytes of the entries up to the end of the last `lklen` field. -/
def needLen : List ManifestEntry → Nat
  | [] => 0
  | [f] => headLen f
  | f :: g :: es => headLen f + f.largestKey.length + needLen (g :: es)

theorem headLen_le_needLen (f : ManifestEntry) (es : List ManifestEntry) :
    headLen f ≤ needLen (f :: es) := by
  cases es with
  | nil => simp [needLen]
  | cons g es => simp only [needLen]; omega

theorem needLen_pos (f : ManifestEntry) (es : List ManifestEntry) : 0 < needLen (f :: es) := by
  have := headLen_le_needLen f es
  unfold headLen at this
  omega

theorem readEntries_encode {es : List ManifestEntry} (h : ∀ f ∈ es, EntryFits f)
    (input rest : Bytes) (size : Nat) (hsz : rest.length ≤ size) :
    (rest.length + needLen es ≤ size →
      ∃ size', Reader.readEntries es.length ⟨es.flatMap encodeEntry ++ input, rest, size⟩ =
        some (es, ⟨input, rest ++ es.flatMap encodeEntry, size'⟩)) ∧
    (size < rest.length + needLen es →
      Reader.readEntries es.length ⟨es.flatMap encodeEntry ++ input, rest, size⟩ = none) := by
  -- on the entries, for every state of the buffer: a buffer that `read_bytes` had to grow is
  -- full, so the induction hypothesis refuses whatever entry comes next
  induction es generalizing rest size with
  | nil =>
    refine ⟨fun _ => ⟨size, by simp [Reader.readEntries]⟩, fun hn => ?_⟩
    simp [needLen] at hn
    omega
  | cons f es ih =>
    have hf := h f (List.mem_cons_self ..)
    have hes := fun g hg => h g (List.mem_cons_of_mem f hg)
    have hlen := encodeEntry_length hf
    have hhead := headLen_le_needLen f es
    rw [List.flatMap_cons, List.append_assoc, List.length_cons]
    simp only [Reader.readEntries, readEntry_encode hf]
    by_cases hr : rest.length + headLen f > size
    · refine ⟨fun hn => by omega, fun _ => ?_⟩
      rw [if_pos hr]
      rfl
    rw [if_neg hr]
    simp only [Option.bind_eq_bind, Option.bind_some]
    have hrl : (rest ++ encodeEntry f).length =
        rest.length + headLen f + f.largestKey.length := by
      rw [List.length_append, hlen]
      unfold headLen
      omega
    have hgrow : (rest ++ encodeEntry f).length ≤
        grown (rest.length + headLen f) f.largestKey.length size := by
      rw [hrl]
      unfold grown
      split <;> omega
    obtain ⟨ih1, ih2⟩ := ih hes (rest ++ encodeEntry f)
      (grown (rest.length + headLen f) f.largestKey.length size) hgrow
    cases es with
    | nil =>
      obtain ⟨size', e⟩ := ih1 (by simpa [needLen] using hgrow)
      refine ⟨fun _ => ⟨size', ?_⟩, fun hn => ?_⟩
      · rw [e]
        simp
      · simp only [needLen] at hn
        omega
    | cons g es =>
      have hpos := needLen_pos g es
      constructor
      · intro hn
        simp only [needLen] at hn
        have hsame : grown (rest.length + headLen f) f.largestKey.length size = size := by
          unfold grown
          split
          · rfl
          · omega
        obtain ⟨size', e⟩ := ih1 (by rw [hsame, hrl]; omega)
        refine ⟨size', ?_⟩
        rw [e]
        simp
      · intro hn
        simp only [needLen] at hn
        have hlt : grown (rest.length + headLen f) f.largestKey.length size <
            (rest ++ encodeEntry f).length + needLen (g :: es) := by
          rw [hrl]
          unfold grown
          split <;> omega
        rw [ih2 hlt]
        rfl

/-- All key bytes of a snapshot except those of the last entry's largest key: what the slack
    of the scratch buffer has to hold when the last `lklen` is read. -/
def keyBytesBeforeLast : List ManifestEntry → Nat
  | [] => 0
  | [f] => f.smallestKey.length
  | f :: g :: es => f.smallestKey.length + f.largestKey.length + keyBytesBeforeLast (g :: es)

theorem needLen_eq (es : List ManifestEntry) :
    needLen es = 16 * es.length + keyBytesBeforeLast es := by
  induction es with
  | nil => rfl
  | cons f es ih =>
    cases es with
    | nil => simp only [needLen, headLen, keyBytesBeforeLast, List.length_singleton]
    | cons g es =>
      simp only [needLen, headLen, keyBytesBeforeLast, List.length_cons] at ih ⊢
      omega

/-- The snapshots `load_latest` can read: at most 65536 entries, and at most 262144 key bytes
    before the last key. -/
def ReaderOk (files : List ManifestEntry) : Prop :=
  files.length ≤ maxCount ∧ keyBytesBeforeLast files ≤ restSlack

instance (files : List ManifestEntry) : Decidable (ReaderOk files) :=
  inferInstanceAs (Decidable (_ ∧ _))

/-- Every key of the snapshot fits its length field. -/
def Fits (files : List ManifestEntry) : Prop := ∀ f ∈ files, EntryFits f

theorem flatMap_encodeEntry_length {files : List ManifestEntry} (h : Fits files) :
    4 + (files.flatMap encodeEntry).length = bodyLen files := by
  unfold bodyLen
  induction files with
  | nil => rfl
  | cons f es ih =>
    have e := encodeEntry_length (h f (List.mem_cons_self ..))
    have := ih (fun g hg => h g (List.mem_cons_of_mem f hg))
    simp only [List.flatMap_cons, List.length_append, List.map_cons, List.sum_cons, e]
    omega

/-- With keys that fit there is no zero padding in the record. -/
theorem snapshotBody_of_fits {files : List ManifestEntry} (h : Fits files) :
    snapshotBody files =
      putU32Le (UInt32.ofNat files.length) ++ files.flatMap encodeEntry := by
  have := flatMap_encodeEntry_length h
  unfold snapshotBody
  simp only [List.length_append, putU32Le_length]
  rw [this]
  simp

/-- What `readSnapshot` does on a record whose count field has not wrapped. -/
theorem readSnapshot_encode {files : List ManifestEntry} (h : Fits files)
    (hc : files.length < 2 ^ 32) (tail : Bytes) :
    readSnapshot (encodeSnapshot files ++ tail) =
      if ReaderOk files then some (files, tail) else none := by
  have hcount := toNat_u32_of_lt hc
  have hneed := needLen_eq files
  unfold readSnapshot encodeSnapshot
  rw [snapshotBody_of_fits h]
  simp only [List.append_assoc]
  rw [readFully_append (putU32Le_length _)]
  simp only [Option.bind_eq_bind, Option.bind_some]
  rw [readFully_append (putU32Le_length _)]
  simp only [Option.bind_some, getU32Le_putU32Le', hcount]
  by_cases hm : files.length > maxCount
  · rw [if_pos hm, if_neg (fun hok => by have := hok.1; omega)]
  rw [if_neg hm]
  obtain ⟨h1, h2⟩ := readEntries_encode h tail [] (files.length * 16 + restSlack) (Nat.zero_le _)
  by_cases hk : keyBytesBeforeLast files ≤ restSlack
  · obtain ⟨size', e⟩ := h1 (by simp only [List.length_nil]; omega)
    rw [if_pos ⟨by omega, hk⟩, e]
    simp
  · rw [h2 (by simp only [List.length_nil]; omega), if_neg (fun hok => hk hok.2)]
    rfl

theorem takesBack_readSnapshot {files : List ManifestEntry} (h : Fits files)
    (hok : ReaderOk files) : TakesBack readSnapshot encodeSnapshot files := by
  have hc : files.length < 2 ^ 32 := by
    have := hok.1
    unfold maxCount at this
    omega
  intro rest
  rw [readSnapshot_encode h hc, if_pos hok]

/-! ## What is read is what was written -/

/-- From `r` to `r'` the parse took the bytes `bs` off the input and put them into `rest`. -/
def Reader.Took (r : Reader) (bs : Bytes) (r' : Reader) : Prop :=
  r.input = bs ++ r'.input ∧ r'.rest = r.rest ++ bs

theorem Reader.Took.trans {r r' r'' : Reader} {a b : Bytes} (h : r.Took a r')
    (h' : r'.Took b r'') : r.Took (a ++ b) r'' :=
  ⟨by rw [h.1, h'.1, List.append_assoc], by rw [h'.2, h.2, List.append_assoc]⟩

theorem Reader.took_nil (r : Reader) : r.Took [] r := ⟨rfl, (List.append_nil _).symm⟩

section Took

variable {r r' : Reader}

theorem readU32_took {v : UInt32} (h : r.readU32 = some (v, r')) : r.Took (putU32Le v) r' := by
  unfold Reader.readU32 at h
  split at h
  · simp at h
  · simp only [Option.bind_eq_bind, Option.bind_eq_some_iff, Prod.exists] at h
    obtain ⟨tmp, input, h1, h2⟩ := h
    obtain ⟨hin, hlen⟩ := readFully_eq_some h1
    cases h2
    have hput : putU32Le (getU32Le tmp) = tmp := by
      rw [putU32Le_getU32Le hlen.ge, List.take_of_length_le hlen.le]
    exact ⟨by rw [hput]; exact hin, by rw [hput]⟩

theorem readBytes_took {n : Nat} {out : Bytes} (h : r.readBytes n = some (out, r')) :
    out.length = n ∧ r.Took out r' := by
  unfold Reader.readBytes at h
  split at h
  · rename_i hn
    cases h
    exact ⟨hn.symm, r.took_nil⟩
  · simp only [Option.bind_eq_bind, Option.bind_eq_some_iff, Prod.exists] at h
    obtain ⟨tmp, input, h1, h2⟩ := h
    obtain ⟨hin, hlen⟩ := readFully_eq_some h1
    cases h2
    exact ⟨hlen, hin, rfl⟩

theorem readEntry_took {f : ManifestEntry} (h : r.readEntry = some (f, r')) :
    EntryFits f ∧ r.Took (encodeEntry f) r' := by
  unfold Reader.readEntry at h
  simp only [Option.bind_eq_bind, Option.bind_eq_some_iff, Prod.exists] at h
  obtain ⟨num, r1, h1, level, r2, h2, skLen, r3, h3, sk, r4, h4, lkLen, r5, h5, lk, r6, h6, h7⟩ := h
  cases h7
  obtain ⟨hsk, t4⟩ := readBytes_took h4
  obtain ⟨hlk, t6⟩ := readBytes_took h6
  have hfits : EntryFits ⟨num.toInt32, level.toInt32, sk, lk⟩ :=
    ⟨hsk ▸ skLen.toNat_lt, hlk ▸ lkLen.toNat_lt⟩
  refine ⟨hfits, ?_⟩
  rw [encodeEntry_of_fits hfits]
  have t3 := readU32_took h3
  have t5 := readU32_took h5
  rw [← UInt32.ofNat_toNat (x := skLen), ← hsk] at t3
  rw [← UInt32.ofNat_toNat (x := lkLen), ← hlk] at t5
  exact (readU32_took h1).trans ((readU32_took h2).trans (t3.trans (t4.trans (t5.trans t6))))

theorem readEntries_took {n : Nat} {es : List ManifestEntry}
    (h : Reader.readEntries n r = some (es, r')) :
    es.length = n ∧ Fits es ∧ r.Took (es.flatMap encodeEntry) r' := by
  induction n generalizing r es with
  | zero =>
    cases h
    exact ⟨rfl, fun f hf => absurd hf List.not_mem_nil, Reader.took_nil _⟩
  | succ n ih =>
    simp only [Reader.readEntries, Option.bind_eq_bind, Option.bind_eq_some_iff,
      Prod.exists] at h
    obtain ⟨f, r1, h1, es', r2, h2, h3⟩ := h
    cases h3
    obtain ⟨hf, t1⟩ := readEntry_took h1
    obtain ⟨hlen, hes, t2⟩ := ih h2
    exact ⟨congrArg (· + 1) hlen, List.forall_mem_cons.2 ⟨hf, hes⟩, t1.trans t2⟩

end Took

/-- The reader accepts nothing but the record of what it returns. -/
theorem readSnapshot_some {bs rest : Bytes} {s : List ManifestEntry}
    (h : readSnapshot bs = some (s, rest)) :
    bs = encodeSnapshot s ++ rest ∧ Fits s ∧ ReaderOk s := by
  have hread := h
  unfold readSnapshot at h
  simp only [Option.bind_eq_bind, Option.bind_eq_some_iff, Prod.exists] at h
  obtain ⟨crcBuf, fd1, h1, countBuf, fd2, h2, h3⟩ := h
  obtain ⟨hbs, hcrc⟩ := readFully_eq_some h1
  obtain ⟨hfd, hcount⟩ := readFully_eq_some h2
  split at h3
  · simp at h3
  · simp only [Option.bind_eq_some_iff, Prod.exists] at h3
    obtain ⟨es, r, h4, h5⟩ := h3
    split at h5
    · simp at h5
    · rename_i hmax hsum
      cases h5
      obtain ⟨hlen, hfits, hin, hrest⟩ := readEntries_took h4
      have hbody : snapshotBody s = countBuf ++ r.rest := by
        rw [snapshotBody_of_fits hfits, hlen, UInt32.ofNat_toNat, putU32Le_getU32Le hcount.ge,
          List.take_of_length_le hcount.le, hrest, List.nil_append]
      have henc : bs = encodeSnapshot s ++ r.input := by
        rw [encodeSnapshot, hbody, not_not.1 hsum, putU32Le_getU32Le hcrc.ge,
          List.take_of_length_le hcrc.le, hbs, hfd, show fd2 = _ from hin, hrest]
        simp only [List.append_assoc, List.nil_append]
      refine ⟨henc, hfits, ?_⟩
      -- the writer's own record of `s` is read, so `s` is within the reader's limits
      by_contra hok
      have hlt : s.length < 2 ^ 32 := hlen ▸ UInt32.toNat_lt _
      rw [henc, readSnapshot_encode hfits hlt, if_neg hok] at hread
      simp at hread

theorem encodeSnapshot_length (files : List ManifestEntry) : 8 ≤ (encodeSnapshot files).length := by
  unfold encodeSnapshot snapshotBody
  simp only [List.length_append, putU32Le_length]
  omega

theorem reencodes_readSnapshot : Reencodes readSnapshot encodeSnapshot :=
  fun _ _ _ h => (readSnapshot_some h).1

theorem consumes_readSnapshot : Consumes readSnapshot := by
  intro bs s rest h
  have := encodeSnapshot_length s
  rw [reencodes_readSnapshot bs s rest h, List.length_append]
  omega

theorem readSnapshot_nil : readSnapshot [] = none := rfl

/-- A record cut at any byte, in any field of any entry, is refused. -/
theorem refusesTorn_readSnapshot {files : List ManifestEntry} (h : Fits files)
    (hok : ReaderOk files) : RefusesTorn readSnapshot encodeSnapshot files :=
  (reencodes_readSnapshot.extends fun _ _ _ h =>
    takesBack_readSnapshot (readSnapshot_some h).2.1 (readSnapshot_some h).2.2).refusesTorn
    (takesBack_readSnapshot h hok)

/-! ## Whole files -/

theorem appendAll_eq (path : Option Bytes) (snaps : List (List ManifestEntry))
    (hne : snaps ≠ []) :
    appendAll path snaps = some (path.getD [] ++ snaps.flatMap encodeSnapshot) := by
  have key : ∀ (l : List (List ManifestEntry)) (p : Bytes),
      appendAll (some p) l = some (p ++ l.flatMap encodeSnapshot) := by
    intro l
    induction l with
    | nil => intro p; simp [appendAll]
    | cons s l ih =>
      intro p
      have : appendAll (some p) (s :: l) = appendAll (some (p ++ encodeSnapshot s)) l := rfl
      rw [this, ih, List.flatMap_cons, List.append_assoc]
  cases snaps with
  | nil => exact absurd rfl hne
  | cons s l =>
    have : appendAll path (s :: l) = appendAll (some (path.getD [] ++ encodeSnapshot s)) l := rfl
    rw [this, key, List.flatMap_cons, List.append_assoc]

/-- Readable records in front are passed over; the last of them stands until a later one is
    read. -/
theorem records_readSnapshot_append {snaps : List (List ManifestEntry)}
    (hf : ∀ s ∈ snaps, Fits s) (hok : ∀ s ∈ snaps, ReaderOk s) (tail : Bytes) :
    records readSnapshot (snaps.flatMap encodeSnapshot ++ tail) =
      snaps ++ records readSnapshot tail :=
  records_append consumes_readSnapshot
    (fun s hs => takesBack_readSnapshot (hf s hs) (hok s hs)) tail

/-- The first unreadable record ends the scan. -/
theorem records_readSnapshot_bad {files : List ManifestEntry} (hf : Fits files)
    (hc : files.length < 2 ^ 32) (hbad : ¬ ReaderOk files) (tail : Bytes) :
    records readSnapshot (encodeSnapshot files ++ tail) = [] :=
  records_stop (by rw [readSnapshot_encode hf hc, if_neg hbad])

theorem loadLatest_of_readerOk {snaps : List (List ManifestEntry)} (hne : snaps ≠ [])
    (hf : ∀ s ∈ snaps, Fits s) (hok : ∀ s ∈ snaps, ReaderOk s) :
    loadLatest (appendAll none snaps) = snaps.getLast hne := by
  have e := records_readSnapshot_append hf hok []
  rw [records_stop readSnapshot_nil, List.append_nil, List.append_nil] at e
  rw [appendAll_eq none snaps hne, loadLatest]
  simp only [Option.getD_none, List.nil_append, e]
  rw [List.getLastD_eq_getLast?, List.getLast?_eq_some_getLast hne, Option.getD_some]

/-- At the first snapshot over the reader's limits the scan stops for good: the snapshot
    before it is what is loaded, whatever was committed later. -/
theorem loadLatest_stops {pre post : List (List ManifestEntry)} {bad : List ManifestEntry}
    (hpre : ∀ s ∈ pre, Fits s) (hok : ∀ s ∈ pre, ReaderOk s) (hf : Fits bad)
    (hc : bad.length < 2 ^ 32) (hbad : ¬ ReaderOk bad) :
    loadLatest (appendAll none (pre ++ bad :: post)) = pre.getLastD [] := by
  rw [appendAll_eq none _ (by simp), loadLatest]
  simp only [Option.getD_none, List.nil_append, List.flatMap_append, List.flatMap_cons]
  rw [records_readSnapshot_append hpre hok, records_readSnapshot_bad hf hc hbad, List.append_nil]

/-- A list splits at its first element outside a decidable property. -/
theorem exists_first_not {α : Type} (p : α → Prop) [DecidablePred p] {l : List α}
    (h : ¬ ∀ a ∈ l, p a) :
    ∃ pre bad post, l = pre ++ bad :: post ∧ (∀ a ∈ pre, p a) ∧ ¬ p bad := by
  induction l with
  | nil => exact absurd (by simp) h
  | cons a l ih =>
    by_cases ha : p a
    · have hl : ¬ ∀ b ∈ l, p b := by
        intro hl
        apply h
        intro b hb
        rcases List.mem_cons.1 hb with rfl | hb
        · exact ha
        · exact hl b hb
      obtain ⟨pre, bad, post, rfl, hpre, hbad⟩ := ih hl
      refine ⟨a :: pre, bad, post, rfl, ?_, hbad⟩
      intro b hb
      rcases List.mem_cons.1 hb with rfl | hb
      · exact ha
      · exact hpre b hb
    · exact ⟨[], a, l, rfl, by simp, ha⟩

/-- **Writer and reader of the MANIFEST agree up to the reader's limits.** Snapshots that are
    all `ReaderOk` are loaded back as written. With counts below `2^32`, the last snapshot is
    what is loaded only then, or when it happens to repeat the snapshot that precedes the
    first one over the limits. -/
theorem loadLatest_appendAll_iff (snaps : List (List ManifestEntry)) (hne : snaps ≠ [])
    (hf : ∀ s ∈ snaps, Fits s) :
    ((∀ s ∈ snaps, ReaderOk s) → loadLatest (appendAll none snaps) = snaps.getLast hne) ∧
    ((∀ s ∈ snaps, s.length < 2 ^ 32) →
      (loadLatest (appendAll none snaps) = snaps.getLast hne ↔
        (∀ s ∈ snaps, ReaderOk s) ∨
        ∃ pre bad post, snaps = pre ++ bad :: post ∧ (∀ s ∈ pre, ReaderOk s) ∧
          ¬ ReaderOk bad ∧ pre.getLastD [] = snaps.getLast hne)) := by
  refine ⟨loadLatest_of_readerOk hne hf, fun hc => ⟨fun hload => ?_, ?_⟩⟩
  · by_cases hall : ∀ s ∈ snaps, ReaderOk s
    · exact Or.inl hall
    · obtain ⟨pre, bad, post, rfl, hpre, hbad⟩ := exists_first_not ReaderOk hall
      refine Or.inr ⟨pre, bad, post, rfl, hpre, hbad, ?_⟩
      rw [← hload]
      exact (loadLatest_stops (fun s hs => hf s (by simp [hs])) hpre (hf bad (by simp))
        (hc bad (by simp)) hbad).symm
  · rintro (hall | ⟨pre, bad, post, rfl, hpre, hbad, hlast⟩)
    · exact loadLatest_of_readerOk hne hf hall
    · rw [← hlast]
      exact loadLatest_stops (fun s hs => hf s (by simp [hs])) hpre (hf bad (by simp))
        (hc bad (by simp)) hbad

/-- The theorem at two snapshots of the shape `ManifestTest.RoundTrip` writes. -/
theorem loadLatest_appendAll_iff_two :
    loadLatest (appendAll none [[⟨1, 0, [97], [99]⟩], [⟨2, 1, [], [98]⟩, ⟨3, 0, [97], []⟩]]) =
      [⟨2, 1, [], [98]⟩, ⟨3, 0, [97], []⟩] :=
  (loadLatest_appendAll_iff [[⟨1, 0, [97], [99]⟩], [⟨2, 1, [], [98]⟩, ⟨3, 0, [97], []⟩]]
    (by simp) (by simp [Fits, EntryFits])).1 (by decide)

/-- A table whose smallest key is one byte longer than the slack of the scratch buffer. -/
def longKeyEntry : ManifestEntry := ⟨1, 0, List.replicate 262145 0, [1]⟩

theorem longKeyEntry_smallestKey : longKeyEntry.smallestKey.length = 262145 :=
  List.length_replicate

theorem longKeyEntry_largestKey : longKeyEntry.largestKey.length = 1 := rfl

/-- The snapshot of one such table, committed to a new MANIFEST, is not loaded. -/
theorem loadLatest_longKey :
    ¬ ∀ (snaps : List (List ManifestEntry)) (hne : snaps ≠ []), (∀ s ∈ snaps, Fits s) →
      loadLatest (appendAll none snaps) = snaps.getLast hne := by
  intro h
  have hfit : Fits [longKeyEntry] := by
    intro f hf
    rw [List.mem_singleton.1 hf, EntryFits, longKeyEntry_smallestKey, longKeyEntry_largestKey]
    omega
  have hbad : ¬ ReaderOk [longKeyEntry] := by
    rw [ReaderOk, keyBytesBeforeLast, longKeyEntry_smallestKey]
    unfold restSlack
    omega
  have hload := h [[longKeyEntry]] (by simp) (by simpa using hfit)
  have hstop : loadLatest (appendAll none ([] ++ [longKeyEntry] :: [])) = [].getLastD [] :=
    loadLatest_stops (by simp) (by simp) hfit (by simp) hbad
  rw [List.nil_append] at hstop
  rw [hstop] at hload
  simp at hload

end Manifest

end Keystone
