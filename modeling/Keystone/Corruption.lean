/-
  What the checksums detect.

  `bitSerialCrc32` is the definition of the reflected CRC-32, one bit at a time through a shift
  register. `crc32_eq_bitSerial`: the table-driven `crc32` computes it on every input. Since its
  polynomial has its top bit set, a change within four consecutive bytes always changes the
  checksum (`crc32_burst`).

  * `readBlock_detects`: such a change of a block's payload, and any change of its trailer, makes
    `read_block` throw.
  * `replay_stops`: such a change inside a record of the log, its two length fields apart, makes
    `replay` end right before that record.
-/
import Keystone.Lib.ShiftRegister
import Keystone.SSTable
import Keystone.Wal

namespace Keystone

open ShiftRegister Frame

/-! ## The table and the shift register -/

/-- The reflected polynomial of CRC-32. -/
def crcPoly : BitVec 32 := 0xEDB88320#32

/-- The bits of a byte, least significant first. -/
def byteBits (b : UInt8) : List Bool := lowBits 8 b.toBitVec

/-- The bit-serial reflected CRC-32. -/
def bitSerialCrc32 (data : Bytes) : UInt32 :=
  ⟨feed crcPoly 0xFFFFFFFF#32 (data.flatMap byteBits) ^^^ 0xFFFFFFFF#32⟩

theorem and_one_ne_zero (c : UInt32) : c &&& 1 ≠ 0 ↔ c.toBitVec.getLsbD 0 = true := by
  have hmod : (c &&& 1).toNat = c.toNat % 2 := by
    rw [UInt32.toNat_and]
    exact Nat.and_one_is_mod _
  rw [BitVec.getLsbD, Nat.testBit_zero, decide_eq_true_eq, ne_eq, ← UInt32.toNat_inj, hmod]
  show ¬ c.toNat % 2 = 0 ↔ c.toNat % 2 = 1
  omega

theorem crcStep_toBitVec (c : UInt32) : (crcStep c).toBitVec = step crcPoly c.toBitVec := by
  unfold crcStep step shiftIn
  rw [Bool.xor_false]
  by_cases h : c.toBitVec.getLsbD 0 = true
  · rw [if_pos ((and_one_ne_zero c).2 h), if_pos h]
    rfl
  · rw [if_neg (mt (and_one_ne_zero c).1 h), if_neg h]
    rfl

theorem iterate_crcStep_toBitVec (n : Nat) (c : UInt32) :
    (crcStep^[n] c).toBitVec = (step crcPoly)^[n] c.toBitVec := by
  induction n generalizing c with
  | zero => rfl
  | succ n ih => rw [Function.iterate_succ_apply, Function.iterate_succ_apply, ih, crcStep_toBitVec]

theorem kTable_getD {i : Nat} (h : i < 256) : kTable.getD i 0 = crcStep^[8] (UInt32.ofNat i) := by
  rw [kTable, List.getD_eq_getElem?_getD, List.getElem?_map, List.getElem?_range h]
  rfl

/-- The table entry of a word's low byte is eight steps of that byte. -/
theorem kTable_low_byte (x : UInt32) : (kTable.getD (x &&& 0xFF).toNat 0).toBitVec =
    (step crcPoly)^[8] ((x.toBitVec.setWidth 8).setWidth 32) := by
  have hmod : (x &&& 0xFF).toNat = x.toNat % 256 := by
    rw [UInt32.toNat_and]
    exact Nat.and_two_pow_sub_one_eq_mod _ 8
  have hlow : (UInt32.ofNat (x.toNat % 256)).toBitVec = (x.toBitVec.setWidth 8).setWidth 32 := by
    apply BitVec.eq_of_toNat_eq
    rw [UInt32.toNat_toBitVec, UInt32.toNat_ofNat', BitVec.toNat_setWidth, BitVec.toNat_setWidth,
      UInt32.toNat_toBitVec]
  rw [hmod, kTable_getD (Nat.mod_lt _ (by decide)), iterate_crcStep_toBitVec, hlow]

/-- One byte of the table-driven update is eight message bits. -/
theorem crcByte_toBitVec (c : UInt32) (b : UInt8) :
    (crcByte c b).toBitVec = feed crcPoly c.toBitVec (byteBits b) := by
  have hb : b.toBitVec.setWidth 32 >>> 8 = 0#32 := by
    apply BitVec.eq_of_getLsbD_eq
    intro i _
    rw [BitVec.getLsbD_ushiftRight, BitVec.getLsbD_setWidth, BitVec.getLsbD_of_ge _ _ (by omega)]
    simp
  have hbits : lowBits 8 (b.toBitVec.setWidth 32) = byteBits b :=
    List.map_congr_left fun i hi => by
      rw [BitVec.getLsbD_setWidth, decide_eq_true (by have := List.mem_range.1 hi; omega),
        Bool.true_and]
  have hx : (c ^^^ b.toUInt32).toBitVec = c.toBitVec ^^^ b.toBitVec.setWidth 32 := rfl
  calc (crcByte c b).toBitVec
      = (step crcPoly)^[8] (((c ^^^ b.toUInt32).toBitVec.setWidth 8).setWidth 32) ^^^
          ((c ^^^ b.toUInt32).toBitVec >>> 8) := by
        rw [crcByte, UInt32.toBitVec_xor, kTable_low_byte, hx, BitVec.ushiftRight_xor_distrib, hb,
          BitVec.xor_zero]
        rfl
    _ = (step crcPoly)^[8] (c.toBitVec ^^^ b.toBitVec.setWidth 32) := by
        rw [← iterate_step_split, hx]
    _ = feed crcPoly c.toBitVec (byteBits b) := by
        rw [iterate_step_xor, hb, BitVec.xor_zero, hbits]

theorem foldl_crcByte_toBitVec (data : Bytes) (c : UInt32) :
    (data.foldl crcByte c).toBitVec = feed crcPoly c.toBitVec (data.flatMap byteBits) := by
  induction data generalizing c with
  | nil => rfl
  | cons b data ih => rw [List.foldl_cons, ih, crcByte_toBitVec, List.flatMap_cons, feed_append]

/-- **The table-driven CRC is the bit-serial one.** -/
theorem crc32_eq_bitSerial (data : Bytes) : crc32 data = bitSerialCrc32 data := by
  apply UInt32.toBitVec_inj.1
  rw [crc32, UInt32.toBitVec_xor, foldl_crcByte_toBitVec]
  rfl

/-! ## Changes within four bytes -/

/-- `p'` is `p` with a change that lies within four consecutive bytes. -/
structure Burst (p p' : Bytes) : Prop where
  length : p'.length = p.length
  ne : p' ≠ p
  window : ∃ start, ∀ i, p'[i]? ≠ p[i]? → start ≤ i ∧ i < start + 4

/-- The change is a replacement of one stretch. -/
theorem Burst.split {p p' : Bytes} (h : Burst p p') : ∃ pre x y suf, p = pre ++ x ++ suf ∧
    p' = pre ++ y ++ suf ∧ x.length = y.length ∧ x.length ≤ 4 ∧ x ≠ y := by
  obtain ⟨start, hwin⟩ := h.window
  have hsplit : ∀ l : Bytes, l = l.take start ++ (l.drop start).take 4 ++ l.drop (start + 4) := by
    intro l
    rw [List.append_assoc, ← List.drop_drop, List.take_append_drop, List.take_append_drop]
  have hpre : p'.take start = p.take start := by
    refine List.ext_getElem? fun i => ?_
    rw [List.getElem?_take, List.getElem?_take]
    split
    · by_contra hne
      have := hwin i hne
      omega
    · rfl
  have hsuf : p'.drop (start + 4) = p.drop (start + 4) := by
    refine List.ext_getElem? fun i => ?_
    rw [List.getElem?_drop, List.getElem?_drop]
    by_contra hne
    have := hwin _ hne
    omega
  refine ⟨p.take start, (p.drop start).take 4, (p'.drop start).take 4, p.drop (start + 4),
    hsplit p, ?_, by simp [h.length], by simp, fun he => h.ne ?_⟩
  · rw [← hpre, ← hsuf]
    exact hsplit p'
  · rw [hsplit p', hpre, ← he, hsuf]
    exact (hsplit p).symm

theorem byteBits_length (b : UInt8) : (byteBits b).length = 8 := by simp [byteBits, lowBits]

theorem byteBits_injective : Function.Injective byteBits := by
  intro a b h
  apply UInt8.toBitVec_inj.1
  apply BitVec.eq_of_getLsbD_eq
  intro i hi
  exact List.map_inj_left.1 h i (List.mem_range.2 hi)

theorem flatMap_byteBits_length (p : Bytes) : (p.flatMap byteBits).length = 8 * p.length := by
  induction p with
  | nil => rfl
  | cons b p ih =>
    rw [List.flatMap_cons, List.length_append, byteBits_length, ih, List.length_cons]
    omega

theorem flatMap_byteBits_injective : Function.Injective (List.flatMap byteBits) := by
  intro p q h
  induction p generalizing q with
  | nil =>
    have hlen := congrArg List.length h
    rw [flatMap_byteBits_length, flatMap_byteBits_length] at hlen
    exact (List.length_eq_zero_iff.1 (by simpa using hlen.symm)).symm
  | cons a p ih =>
    cases q with
    | nil =>
      have hlen := congrArg List.length h
      rw [flatMap_byteBits_length, flatMap_byteBits_length] at hlen
      simp at hlen
    | cons b q =>
      rw [List.flatMap_cons, List.flatMap_cons] at h
      obtain ⟨hab, hpq⟩ := List.append_inj h (by simp [byteBits_length])
      rw [byteBits_injective hab, ih hpq]

/-- **Four bytes are protected**: a change within them changes the checksum. -/
theorem crc32_burst {p p' : Bytes} (h : Burst p p') : crc32 p' ≠ crc32 p := by
  obtain ⟨pre, x, y, suf, rfl, rfl, hlen, h4, hne⟩ := h.split
  intro hcrc
  rw [crc32_eq_bitSerial, crc32_eq_bitSerial, bitSerialCrc32, bitSerialCrc32] at hcrc
  have hfeed := (BitVec.xor_left_inj _).1 (UInt32.ofBitVec.inj hcrc)
  rw [List.flatMap_append, List.flatMap_append, List.flatMap_append, List.flatMap_append] at hfeed
  refine hne (flatMap_byteBits_injective (feed_burst rfl ?_ ?_ hfeed.symm))
  · rw [flatMap_byteBits_length, flatMap_byteBits_length, hlen]
  · rw [flatMap_byteBits_length]
    omega

/-! ## Blocks -/

namespace SSTable

variable {t : SSTable} {ie : IndexEntry} {payload trailer : Bytes}

/-- A block whose trailer is not the checksum of its payload is refused. -/
theorem readBlock_mismatch (hv : 3 ≤ t.footer.formatVersion) (hlen : trailer.length = 4)
    (hread : pread t.file ie.length ie.offset = some (payload ++ trailer))
    (hne : getU32Le trailer ≠ crc32 payload) : ∃ what, t.readBlock ie = .error (.thrown what) := by
  have hsize : (payload ++ trailer).length - 4 = payload.length := by
    rw [List.length_append, hlen]
    omega
  have h4 : (payload ++ trailer).length ≥ 4 := by
    rw [List.length_append, hlen]
    omega
  unfold readBlock allocate
  split
  · exact ⟨_, rfl⟩
  · refine ⟨"SSTable block checksum mismatch", ?_⟩
    simp only [hread, Option.getD_some, hsize, List.drop_left, List.take_left, bind, Except.bind]
    rw [if_pos ⟨hv, h4⟩, if_pos hne]

/-- **A block's checksum detects local corruption**: a payload changed within four bytes, and a
    trailer changed at all. -/
theorem readBlock_detects (t : SSTable) (ie : IndexEntry) (p : Bytes)
    (hv : 3 ≤ t.footer.formatVersion) :
    (∀ p', Burst p p' → crc32 p' ≠ crc32 p ∧
      (pread t.file ie.length ie.offset = some (p' ++ putU32Le (crc32 p)) →
        ∃ what, t.readBlock ie = .error (.thrown what))) ∧
    ∀ trailer, trailer.length = 4 → trailer ≠ putU32Le (crc32 p) →
      pread t.file ie.length ie.offset = some (p ++ trailer) →
        ∃ what, t.readBlock ie = .error (.thrown what) := by
  constructor
  · intro p' hburst
    have hne := crc32_burst hburst
    refine ⟨hne, fun hread => readBlock_mismatch hv (putU32Le_length _) hread ?_⟩
    rw [getU32Le_putU32Le']
    exact hne.symm
  · intro trailer hlen hne hread
    refine readBlock_mismatch hv hlen hread fun hcrc => hne ?_
    rw [← hcrc, putU32Le_getU32Le hlen.ge, List.take_of_length_le hlen.le]

/-- A payload of two bytes with its checksum, one byte of it flipped on disk. -/
theorem readBlock_detects_flip : ∃ what,
    (⟨[7, 9] ++ putU32Le (crc32 [7, 8]), ⟨0, 0, 1, 1, 3, kMagic⟩, [⟨[7], 0, 6⟩], none⟩ :
      SSTable).readBlock ⟨[7], 0, 6⟩ = .error (.thrown what) := by
  have hburst : Burst [7, 8] [7, 9] := by
    refine ⟨rfl, by decide, 0, fun i hi => ⟨Nat.zero_le i, ?_⟩⟩
    by_contra h4
    exact hi (by rw [List.getElem?_eq_none (by simp; omega), List.getElem?_eq_none (by simp; omega)])
  exact ((readBlock_detects _ _ [7, 8] (by decide)).1 [7, 9] hburst).2 (by decide +kernel)

end SSTable

/-! ## Log records -/

namespace Wal

/-- The window of `n` bytes at `off` of a record's encoding lies inside its CRC, inside its type
    and sequence number, or inside its key and value. -/
def Protected (r : Record) (off n : Nat) : Prop :=
  off + n ≤ 4 ∨ 4 ≤ off ∧ off + n ≤ 13 ∨ 21 ≤ off ∧ off + n ≤ (encodeRecord r).length

/-- The two length fields of a record. -/
theorem encodeRecord_lengths (r : Record) (rest : Bytes) :
    ((encodeRecord r ++ rest).drop 13).take 8 = putU32Le (UInt32.ofNat r.key.length) ++
      putU32Le (UInt32.ofNat r.value.length) := by
  have h : encodeRecord r ++ rest = (putU32Le (crc32 (recordBody r)) ++
      (r.type.code :: putU64Le r.seq)) ++ ((putU32Le (UInt32.ofNat r.key.length) ++
        putU32Le (UInt32.ofNat r.value.length)) ++ (r.key ++ r.value ++ rest)) := by
    simp [encodeRecord, recordBody]
  rw [h, List.drop_left' (by simp), List.take_left' (by simp)]

theorem encodeRecord_getElem? (r : Record) (j : Nat) :
    (encodeRecord r)[4 + j]? = (recordBody r)[j]? := by
  rw [encodeRecord, List.getElem?_append_right (by simp), putU32Le_length, Nat.add_sub_cancel_left]

theorem lengths_injective {r r' : Record} (h : r.Fits) (h' : r'.Fits)
    (he : putU32Le (UInt32.ofNat r'.key.length) ++ putU32Le (UInt32.ofNat r'.value.length) =
      putU32Le (UInt32.ofNat r.key.length) ++ putU32Le (UInt32.ofNat r.value.length)) :
    r'.key.length = r.key.length ∧ r'.value.length = r.value.length := by
  have hfield : ∀ {m n : Nat}, m < 2 ^ 32 → n < 2 ^ 32 →
      putU32Le (UInt32.ofNat m) = putU32Le (UInt32.ofNat n) → m = n := by
    intro m n hm hn hput
    have := congrArg getU32Le hput
    rw [getU32Le_putU32Le', getU32Le_putU32Le'] at this
    rw [← toNat_u32_of_lt hm, this, toNat_u32_of_lt hn]
  obtain ⟨hk, hv⟩ := List.append_inj he (by simp)
  exact ⟨hfield h'.short.1 h.short.1 hk, hfield h'.short.2 h.short.2 hv⟩

/-- A changed record is not read, whatever follows it. -/
theorem readRecord_changed {r : Record} (h : r.Fits) {bytes : Bytes}
    (hlen : bytes.length = (encodeRecord r).length) (hne : bytes ≠ encodeRecord r) {off n : Nat}
    (hn : n ≤ 4) (hoff : Protected r off n)
    (hwin : ∀ j, bytes[j]? ≠ (encodeRecord r)[j]? → off ≤ j ∧ j < off + n) (rest : Bytes) :
    readRecord (bytes ++ rest) = none := by
  by_contra hsome
  obtain ⟨⟨r', rest'⟩, hread⟩ := Option.ne_none_iff_exists'.1 hsome
  obtain ⟨hbytes, hfits⟩ := readRecord_eq_some hread
  have hsame : ∀ j, (j < off ∨ off + n ≤ j) → bytes[j]? = (encodeRecord r)[j]? := by
    intro j hj
    by_contra hj'
    have := hwin j hj'
    omega
  have hlong := encodeRecord_length r
  -- the length fields are outside the window, so the record that was read has the same ones
  have hlens : ((bytes ++ rest).drop 13).take 8 = ((encodeRecord r ++ rest).drop 13).take 8 := by
    refine List.ext_getElem? fun j => ?_
    rw [List.getElem?_take, List.getElem?_take, List.getElem?_drop, List.getElem?_drop]
    split
    · rw [List.getElem?_append_left (by omega), List.getElem?_append_left (by omega)]
      refine hsame _ ?_
      unfold Protected at hoff
      omega
    · rfl
  rw [hbytes, encodeRecord_lengths, encodeRecord_lengths] at hlens
  obtain ⟨hk, hv⟩ := lengths_injective h hfits hlens
  obtain ⟨rfl, -⟩ := List.append_inj hbytes (by rw [hlen, hlong, encodeRecord_length, hk, hv])
  by_cases h4 : off < 4
  · -- the body is untouched, so its checksum is the stored one
    have hbody : recordBody r' = recordBody r := by
      refine List.ext_getElem? fun j => ?_
      rw [← encodeRecord_getElem?, ← encodeRecord_getElem?]
      exact hsame (4 + j) (by unfold Protected at hoff; omega)
    exact hne (by rw [encodeRecord, encodeRecord, hbody])
  · -- the stored checksum is untouched, and the body is not
    have hcrc : crc32 (recordBody r') = crc32 (recordBody r) := by
      have htake : (encodeRecord r').take 4 = (encodeRecord r).take 4 := by
        refine List.ext_getElem? fun j => ?_
        rw [List.getElem?_take, List.getElem?_take]
        split
        · exact hsame j (by omega)
        · rfl
      rw [encodeRecord, encodeRecord, List.take_left' (by simp), List.take_left' (by simp)] at htake
      have := congrArg getU32Le htake
      rwa [getU32Le_putU32Le', getU32Le_putU32Le'] at this
    refine crc32_burst ⟨?_, fun hbody => hne ?_, off - 4, fun j hj => ?_⟩ hcrc
    · rw [recordBody_length, recordBody_length, hk, hv]
    · rw [encodeRecord, encodeRecord, hbody]
    · rw [← encodeRecord_getElem?, ← encodeRecord_getElem?] at hj
      have := hwin _ hj
      omega

/-- A change inside the middle part of a file leaves the parts around it. -/
theorem changed_middle {a e c file : Bytes} (hlen : file.length = (a ++ e ++ c).length)
    (hwin : ∀ j, file[j]? ≠ (a ++ e ++ c)[j]? → a.length ≤ j ∧ j < a.length + e.length) :
    ∃ e', file = a ++ e' ++ c ∧ e'.length = e.length := by
  have hsame : ∀ j, (j < a.length ∨ a.length + e.length ≤ j) → file[j]? = (a ++ e ++ c)[j]? := by
    intro j hj
    by_contra hj'
    have := hwin j hj'
    omega
  simp only [List.length_append] at hlen
  have ha : file.take a.length = a := by
    refine List.ext_getElem? fun j => ?_
    rw [List.getElem?_take]
    split
    · rename_i hj
      rw [hsame j (Or.inl hj), List.append_assoc, List.getElem?_append_left hj]
    · rw [List.getElem?_eq_none (by omega)]
  have hc : file.drop (a.length + e.length) = c := by
    refine List.ext_getElem? fun j => ?_
    rw [List.getElem?_drop, hsame _ (by omega), List.getElem?_append_right (by simp),
      List.length_append, Nat.add_sub_cancel_left]
  refine ⟨(file.drop a.length).take e.length, ?_, by rw [List.length_take, List.length_drop]; omega⟩
  calc file = file.take a.length ++ ((file.drop a.length).take e.length ++
        (file.drop a.length).drop e.length) := by rw [List.take_append_drop, List.take_append_drop]
    _ = a ++ (file.drop a.length).take e.length ++ c := by
        rw [List.drop_drop, ha, hc, List.append_assoc]

/-- **A corrupt record ends the log**: after a change within four bytes of record `i`, outside its
    length fields, `replay` returns the records before it. -/
theorem replay_stops {rs : List Record} (h : ∀ r ∈ rs, r.Fits) {i : Nat} {r : Record}
    (hi : rs[i]? = some r) {log : Bytes} (hlen : log.length = (appendBatch [] rs).length)
    (hne : log ≠ appendBatch [] rs) {off n : Nat} (hn : n ≤ 4) (hoff : Protected r off n)
    (hwin : ∀ j, log[j]? ≠ (appendBatch [] rs)[j]? →
      (appendBatch [] (rs.take i)).length + off ≤ j ∧
        j < (appendBatch [] (rs.take i)).length + off + n) :
    replay (some log) = rs.take i := by
  obtain ⟨hlt, hr⟩ := List.getElem?_eq_some_iff.1 hi
  have hsplit : appendBatch [] rs = appendBatch [] (rs.take i) ++ encodeRecord r ++
      (rs.drop (i + 1)).flatMap encodeRecord := by
    conv_lhs => rw [← List.take_append_drop i rs, List.drop_eq_getElem_cons hlt, hr]
    simp [appendBatch]
  rw [hsplit] at hlen hne hwin
  have hin : off + n ≤ (encodeRecord r).length := by
    have := encodeRecord_length r
    unfold Protected at hoff
    omega
  obtain ⟨bytes, rfl, hbytes⟩ := changed_middle hlen fun j hj => by
    have := hwin j hj
    omega
  have hread : readRecord (bytes ++ (rs.drop (i + 1)).flatMap encodeRecord) = none := by
    refine readRecord_changed (h r (List.mem_of_getElem? hi)) hbytes (fun he => hne (by rw [he])) hn
      hoff (fun j hj => ?_) _
    have hj' : j < (encodeRecord r).length := by
      by_contra hge
      exact hj (by rw [List.getElem?_eq_none (by omega), List.getElem?_eq_none (by omega)])
    have hmid : ∀ a e c : Bytes, j < e.length → (a ++ e ++ c)[a.length + j]? = e[j]? := by
      intro a e c he
      rw [List.append_assoc, List.getElem?_append_right (Nat.le_add_right _ _),
        Nat.add_sub_cancel_left, List.getElem?_append_left he]
    have := hwin ((appendBatch [] (rs.take i)).length + j)
      (by rwa [hmid _ _ _ (hbytes ▸ hj'), hmid _ _ _ hj'])
    omega
  have hfits : ∀ r' ∈ rs.take i, TakesBack readRecord encodeRecord r' := fun r' hr' =>
    takesBack_readRecord (h r' (List.mem_of_mem_take hr'))
  rw [replay, List.append_assoc, appendBatch, List.nil_append,
    records_append consumes_readRecord hfits, records_stop hread, List.append_nil]

/-- Three records, and a byte of the second one's key flipped. -/
theorem replay_stops_flip :
    replay (some (appendBatch [] [⟨.put, 1, [7], [8]⟩] ++
      (encodeRecord ⟨.put, 2, [9], [9]⟩).set 21 10 ++ appendBatch [] [⟨.delete, 3, [7], []⟩])) =
    [⟨.put, 1, [7], [8]⟩] := by
  refine @replay_stops [⟨.put, 1, [7], [8]⟩, ⟨.put, 2, [9], [9]⟩, ⟨.delete, 3, [7], []⟩]
    (by simp [Record.Fits, maxFieldLen]) 1 _ rfl _ (by decide +kernel) (by decide +kernel) 21 1
    (by decide) (Or.inr (Or.inr (by decide +kernel))) fun j hj => ?_
  by_cases hj' : j < 68
  · revert hj
    revert j
    decide +kernel
  · refine absurd ?_ hj
    rw [List.getElem?_eq_none, List.getElem?_eq_none] <;>
      exact le_trans (by decide +kernel) (not_lt.1 hj')

end Wal

end Keystone
