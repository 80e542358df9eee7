/-
  The readers of a block, byte by byte.

  `Keystone.SSTable` follows a reader by the bytes it has left. Here it is `block_` and `pos_` as
  in the source, and every access to a block is a `bytesAt`, which faults outside of it.
  `read idx` is what `read_block(idx)` comes back with, from the cache or from the file: the
  readers do not ask where a block is from.

  * `getAt_eq`, `entriesAt_eq`, `entriesFromAt_eq`: over the blocks of the file these are the
    readers of `Keystone.SSTable`.
  * `getAt_in_bounds`: `get` checks all it reads.
  * `reads_in_bounds_iff`: the iterator does not. The blocks it loads are `loadsFrom`; it stays
    inside, and comes to an end, just when they consist of whole entries (`Whole`), with one to
    begin with in every block but the first (`Iterable`, `Seekable`). Those of the writer do
    (`wholeBlocks_tableOf`). `iterators_out_of_bounds`: files that `SSTable::open` accepts and
    on which it does not.
-/
import Keystone.Lib.Simulation
import Keystone.SSTableIter

namespace Keystone

open Simulation

namespace SSTable

/-! ## The readers -/

/-- `n` bytes at `pos` through the pointer to a block. -/
def bytesAt (block : Bytes) (pos n : Nat) : Except Fault Bytes :=
  if pos + n ≤ block.length then .ok ((block.drop pos).take n) else .error .outOfBounds

/-- The fields in front of a key, one after the other, and the position behind them. -/
def headerAt (version : UInt32) (block : Bytes) (pos : Nat) : Except Fault (EntryHeader × Nat) := do
  let tag ← bytesAt block pos 1
  let seq ← if version ≥ 2 then (bytesAt block (pos + 1) 8).map getU64Le else .ok 0
  let pos := if version ≥ 2 then pos + 1 + 8 else pos + 1
  let keylen ← bytesAt block pos 4
  let vallen ← bytesAt block (pos + 4) 4
  .ok (⟨tag.headD 0, seq, (getU32Le keylen).toNat, (getU32Le vallen).toNat⟩, pos + 8)

/-- A value; one of length zero is not read. -/
def valueAt (block : Bytes) (pos n : Nat) : Except Fault Bytes :=
  if n > 0 then bytesAt block pos n else .ok []

/-- The entry at `pos` as `parse_entry` reads it, and the position behind it. -/
def entryAt (version : UInt32) (block : Bytes) (pos : Nat) : Except Fault (Entry × Nat) := do
  let (h, pos) ← headerAt version block pos
  let key ← bytesAt block pos h.keylen
  let value ← valueAt block (pos + h.keylen) h.vallen
  .ok (⟨key, value, h.tag = 1, h.seq⟩, pos + h.keylen + h.vallen)

/-- The loop of `get`. -/
def getLoopAt (version : UInt32) (key : Bytes) (snapshotSeq : UInt64) (block : Bytes) :
    Nat → Nat → Except Fault LookupResult
  | 0, _ => .ok .notFound
  | fuel + 1, pos =>
    if pos + entryHdr version ≤ block.length then do
      let (h, pos) ← headerAt version block pos
      if pos + h.keylen + h.vallen > block.length then .ok .notFound
      else do
        let entryKey ← bytesAt block pos h.keylen
        if entryKey = key then
          if h.seq ≤ snapshotSeq then
            if h.tag = 1 then .ok .deleted
            else do
              let value ← bytesAt block (pos + h.keylen) h.vallen
              .ok (.found value)
          else getLoopAt version key snapshotSeq block fuel (pos + h.keylen + h.vallen)
        else if entryKey > key then .ok .notFound
        else getLoopAt version key snapshotSeq block fuel (pos + h.keylen + h.vallen)
    else .ok .notFound

/-- `SSTable::get`. -/
def getAt (t : SSTable) (read : Nat → Except Fault Bytes) (key : Bytes) (snapshotSeq : UInt64) :
    Except Fault LookupResult :=
  if ¬ t.mayContain key then .ok .notFound
  else
    match t.findBlockIdx key with
    | none => .ok .notFound
    | some bi => do
      let block ← read bi
      if block.isEmpty then .ok .notFound
      else getLoopAt t.footer.formatVersion key snapshotSeq block (block.length + 1) 0

/-- `SSTable::Iterator`. -/
structure Cursor where
  blockIdx : Nat
  block : Bytes := []
  pos : Nat := 0
  valid : Bool := true
  current : Entry := ⟨[], [], false, 0⟩
  deriving DecidableEq, Repr

section Cursor

variable (t : SSTable) (read : Nat → Except Fault Bytes)

/-- `load_block`. -/
def loadAt (c : Cursor) : Except Fault Cursor :=
  if t.index.length ≤ c.blockIdx then .ok { c with valid := false }
  else do
    let block ← read c.blockIdx
    if block.isEmpty then .ok { c with block := block, valid := false }
    else .ok { c with block := block, pos := 0 }

/-- The step to the next block. -/
def turnAt (c : Cursor) : Except Fault Cursor :=
  if c.pos + entryHdr t.footer.formatVersion > c.block.length then
    loadAt t read { c with blockIdx := c.blockIdx + 1 }
  else .ok c

/-- `parse_entry`. -/
def parseAt (c : Cursor) : Except Fault Cursor :=
  if ¬ c.valid then .ok c
  else do
    let c ← turnAt t read c
    if ¬ c.valid then .ok c
    else do
      let (e, pos) ← entryAt t.footer.formatVersion c.block c.pos
      .ok { c with current := e, pos := pos }

/-- The loop of the seeking constructor; it skips the tag and the sequence number, and passes over
    an entry by a sum of two `uint32_t`. -/
def seekLoopAt (target : Bytes) : Nat → Cursor → Except Fault Cursor
  | 0, c => .ok { c with valid := false }
  | fuel + 1, c => do
    let c ← turnAt t read c
    if ¬ c.valid then .ok c
    else do
      let body := c.pos + entryHdr t.footer.formatVersion
      let keylen ← bytesAt c.block (body - 8) 4
      let vallen ← bytesAt c.block (body - 4) 4
      let keylen := (getU32Le keylen).toNat
      let vallen := (getU32Le vallen).toNat
      if body + keylen + vallen > c.block.length then .ok { c with pos := body, valid := false }
      else do
        let entryKey ← bytesAt c.block body keylen
        if entryKey ≥ target then parseAt t read c
        else seekLoopAt target fuel { c with pos := body + (keylen + vallen) % 2 ^ 32 }

/-- `begin`. -/
def beginAt : Except Fault Cursor :=
  if t.index.isEmpty then .ok { blockIdx := 0, valid := false }
  else do
    let c ← loadAt t read { blockIdx := 0 }
    if c.valid then parseAt t read c else .ok c

/-- `seek`, with a bound on the turns of its loop. -/
def seekAt (target : Bytes) (fuel : Nat) : Except Fault Cursor :=
  if t.index.isEmpty then .ok { blockIdx := 0, valid := false }
  else do
    let c ← loadAt t read { blockIdx := (t.findBlockIdx target).getD 0 }
    if c.valid then seekLoopAt t read target fuel c else .ok c

/-- `for (; it != end; ++it)`. -/
def drainAt : Nat → Cursor → Except Fault (List Entry)
  | 0, _ => .ok []
  | fuel + 1, c =>
    if ¬ c.valid then .ok []
    else do
      let c' ← parseAt t read c
      let es ← drainAt fuel c'
      .ok (c.current :: es)

/-- All entries from `begin()` on. -/
def entriesAt : Except Fault (List Entry) := do
  let c ← beginAt t read
  drainAt t read t.iterFuel c

/-- All entries from `seek(target)` on. -/
def entriesFromAt (target : Bytes) : Except Fault (List Entry) := do
  let c ← seekAt t read target t.iterFuel
  drainAt t read t.iterFuel c

end Cursor

/-- `read_block(idx)` when nothing goes wrong with the disk, and without a cache. -/
def blockAt (t : SSTable) (idx : Nat) : Except Fault Bytes :=
  match t.index[idx]? with
  | none => .ok []
  | some ie => t.readBlock ie

/-! ## One access -/

theorem bytesAt_eq {block : Bytes} {pos n : Nat} (h : pos + n ≤ block.length) :
    bytesAt block pos n = .ok ((block.drop pos).take n) := if_pos h

theorem bytesAt_short {block : Bytes} {pos n : Nat} (h : block.length < pos + n) :
    bytesAt block pos n = .error .outOfBounds := if_neg (by omega)

theorem getU32Le_take (bs : Bytes) : getU32Le (bs.take 4) = getU32Le bs := by
  rw [getU32Le, getU32Le, LittleEndian.getLe_take]

theorem getU64Le_take (bs : Bytes) : getU64Le (bs.take 8) = getU64Le bs := by
  rw [getU64Le, getU64Le, LittleEndian.getLe_take]

theorem entryHdr_cases (version : UInt32) :
    version ≥ 2 ∧ entryHdr version = 17 ∨ ¬ version ≥ 2 ∧ entryHdr version = 9 := by
  unfold entryHdr
  by_cases h : version ≥ 2
  · exact Or.inl ⟨h, if_pos h⟩
  · exact Or.inr ⟨h, if_neg h⟩

theorem headerAt_eq {version : UInt32} {block : Bytes} {pos : Nat}
    (h : pos + entryHdr version ≤ block.length) : headerAt version block pos =
      .ok (parseHeader version (block.drop pos), pos + entryHdr version) := by
  have htag : ((block.drop pos).take 1).headD 0 = (block.drop pos).headD 0 := by
    cases block.drop pos <;> rfl
  unfold headerAt parseHeader
  rcases entryHdr_cases version with ⟨hv, hhdr⟩ | ⟨hv, hhdr⟩ <;> rw [hhdr] at h ⊢
  · simp only [if_pos hv, bytesAt_eq (show pos + 1 ≤ block.length by omega),
      bytesAt_eq (show pos + 1 + 8 ≤ block.length by omega),
      bytesAt_eq (show pos + 1 + 8 + 4 ≤ block.length by omega),
      bytesAt_eq (show pos + 1 + 8 + 4 + 4 ≤ block.length by omega), Except.map, bind, Except.bind,
      getU32Le_take, getU64Le_take, htag, List.drop_drop]
  · simp only [if_neg hv, bytesAt_eq (show pos + 1 ≤ block.length by omega),
      bytesAt_eq (show pos + 1 + 4 ≤ block.length by omega),
      bytesAt_eq (show pos + 1 + 4 + 4 ≤ block.length by omega), bind, Except.bind,
      getU32Le_take, htag, List.drop_drop]

theorem headerAt_short {version : UInt32} {block : Bytes} {pos : Nat}
    (h : block.length < pos + entryHdr version) :
    headerAt version block pos = .error .outOfBounds := by
  have hlast : ∀ {p}, p + 8 = pos + entryHdr version →
      (∃ keylen, bytesAt block p 4 = .ok keylen ∧ bytesAt block (p + 4) 4 = .error .outOfBounds) ∨
        bytesAt block p 4 = .error .outOfBounds := by
    intro p hp
    by_cases hk : p + 4 ≤ block.length
    · exact Or.inl ⟨_, bytesAt_eq hk, bytesAt_short (by omega)⟩
    · exact Or.inr (bytesAt_short (by omega))
  unfold headerAt
  by_cases h1 : pos + 1 ≤ block.length
  · rcases entryHdr_cases version with ⟨hv, hhdr⟩ | ⟨hv, hhdr⟩ <;> rw [hhdr] at h hlast
    · by_cases h9 : pos + 1 + 8 ≤ block.length
      · rcases @hlast (pos + 1 + 8) (by omega) with ⟨_, hk, hl⟩ | hk
        · simp only [if_pos hv, bytesAt_eq h1, bytesAt_eq h9, hk, hl, Except.map, bind, Except.bind]
        · simp only [if_pos hv, bytesAt_eq h1, bytesAt_eq h9, hk, Except.map, bind, Except.bind]
      · simp only [if_pos hv, bytesAt_eq h1, bytesAt_short (show block.length < pos + 1 + 8 by omega),
          Except.map, bind, Except.bind]
    · rcases @hlast (pos + 1) (by omega) with ⟨_, hk, hl⟩ | hk
      · simp only [if_neg hv, bytesAt_eq h1, hk, hl, bind, Except.bind]
      · simp only [if_neg hv, bytesAt_eq h1, hk, bind, Except.bind]
  · simp only [bytesAt_short (show block.length < pos + 1 by omega), bind, Except.bind]

/-- The length of the entry at the front of `bs`. -/
def entryLen (version : UInt32) (bs : Bytes) : Nat :=
  entryHdr version + (parseHeader version bs).keylen + (parseHeader version bs).vallen

theorem entryLen_eq (version : UInt32) (bs : Bytes) : entryLen version bs =
    entryHdr version + (parseHeader version bs).keylen + (parseHeader version bs).vallen := rfl

/-- The entry at the front of `bs`. -/
def entryFrom (version : UInt32) (bs : Bytes) : Entry :=
  let h := parseHeader version bs
  let body := bs.drop (entryHdr version)
  ⟨body.take h.keylen, (body.drop h.keylen).take h.vallen, h.tag = 1, h.seq⟩

theorem entryAt_eq {version : UInt32} {block : Bytes} {pos : Nat}
    (h : pos + entryLen version (block.drop pos) ≤ block.length) : entryAt version block pos =
      .ok (entryFrom version (block.drop pos), pos + entryLen version (block.drop pos)) := by
  unfold entryLen at h
  unfold entryAt entryFrom entryLen
  rw [headerAt_eq (by omega)]
  simp only [bind, Except.bind]
  generalize parseHeader version (block.drop pos) = hd at h ⊢
  have hvalue : valueAt block (pos + entryHdr version + hd.keylen) hd.vallen =
      .ok ((block.drop (pos + entryHdr version + hd.keylen)).take hd.vallen) := by
    unfold valueAt
    split
    · exact bytesAt_eq (by omega)
    · rw [show hd.vallen = 0 by omega, List.take_zero]
  rw [bytesAt_eq (by omega), hvalue]
  simp only [List.drop_drop, Nat.add_assoc]

theorem entryAt_short {version : UInt32} {block : Bytes} {pos : Nat}
    (h : block.length < pos + entryLen version (block.drop pos)) :
    entryAt version block pos = .error .outOfBounds := by
  unfold entryLen at h
  unfold entryAt
  by_cases hhdr : pos + entryHdr version ≤ block.length
  · rw [headerAt_eq hhdr]
    simp only [bind, Except.bind]
    generalize parseHeader version (block.drop pos) = hd at h ⊢
    by_cases hkey : pos + entryHdr version + hd.keylen ≤ block.length
    · rw [bytesAt_eq hkey]
      simp only [valueAt, if_pos (show hd.vallen > 0 by omega),
        bytesAt_short (show block.length < pos + entryHdr version + hd.keylen + hd.vallen by omega)]
    · rw [bytesAt_short (by omega)]
  · rw [headerAt_short (by omega)]
    rfl

/-! ## Point lookups -/

/-- Every read of `get` is inside the block, and what it finds is what `getLoop` finds. -/
theorem getLoopAt_eq (version : UInt32) (key : Bytes) (snapshotSeq : UInt64) (block : Bytes)
    (fuel : Nat) {pos : Nat} (hpos : pos ≤ block.length) :
    getLoopAt version key snapshotSeq block fuel pos =
      .ok (getLoop version key snapshotSeq fuel (block.drop pos)) := by
  induction fuel generalizing pos with
  | zero => rfl
  | succ fuel ih =>
    unfold getLoopAt getLoop
    have hlen : (block.drop pos).length = block.length - pos := List.length_drop
    by_cases hhdr : pos + entryHdr version ≤ block.length
    · rw [if_pos hhdr, headerAt_eq hhdr, if_neg (by omega)]
      simp only [bind, Except.bind, List.drop_drop, List.length_drop]
      generalize parseHeader version (block.drop pos) = h
      by_cases hbody : pos + entryHdr version + h.keylen + h.vallen ≤ block.length
      · have hrest : h.keylen + h.vallen ≤ block.length - (pos + entryHdr version) := by omega
        rw [if_neg (not_lt.2 hbody), if_neg (not_lt.2 hrest), bytesAt_eq (by omega)]
        simp only [bytesAt_eq hbody, ih hbody]
        split
        · split
          · split <;> rfl
          · rfl
        · split <;> rfl
      · have hrest : h.keylen + h.vallen > block.length - (pos + entryHdr version) := by omega
        rw [if_pos (not_le.1 hbody), if_pos hrest]
    · rw [if_neg hhdr, if_pos (by omega)]

theorem getAt_eq (t : SSTable) (key : Bytes) (snapshotSeq : UInt64) :
    t.getAt t.blockAt key snapshotSeq = t.get key snapshotSeq := by
  unfold getAt get
  split
  · rfl
  · cases hidx : t.findBlockIdx key with
    | none => rfl
    | some bi =>
      simp only [Option.bind_some, blockAt]
      cases hie : t.index[bi]? with
      | none => rfl
      | some ie =>
        simp only
        cases hread : t.readBlock ie with
        | error fault => rfl
        | ok block =>
          simp only [bind, Except.bind]
          cases block with
          | nil => simp [getLoop, entryHdr]; split <;> simp
          | cons b block =>
            rw [getLoopAt_eq _ _ _ _ _ (Nat.zero_le _)]
            rfl

/-- `get` reads nothing outside of the block it was given. -/
theorem getAt_in_bounds (t : SSTable) {read : Nat → Except Fault Bytes}
    (hread : ∀ idx, read idx ≠ .error .outOfBounds) (key : Bytes) (snapshotSeq : UInt64) :
    t.getAt read key snapshotSeq ≠ .error .outOfBounds := by
  unfold getAt
  split
  · simp
  · split
    · simp
    · rename_i bi _
      cases hb : read bi with
      | error fault =>
        intro h
        exact hread bi (hb.trans (congrArg Except.error (Except.error.inj h)))
      | ok block =>
        simp only [bind, Except.bind]
        split
        · simp
        · rw [getLoopAt_eq _ _ _ _ _ (Nat.zero_le _)]
          simp

/-! ## The two iterators -/

/-- The iterator that stands where the cursor stands. Of an invalid one nothing is used. -/
def StandsAt (c : Cursor) (it : Iterator) : Prop :=
  c.valid = it.valid ∧ (c.valid = true →
    c.pos ≤ c.block.length ∧ it = ⟨c.blockIdx, c.block.drop c.pos, true, c.current⟩)

theorem StandsAt.of_invalid {c : Cursor} {it : Iterator} (hc : c.valid = false)
    (hit : it.valid = false) : StandsAt c it :=
  ⟨hc.trans hit.symm, fun h => by simp [hc] at h⟩

theorem loadAt_follows (t : SSTable) {c : Cursor} {it : Iterator} (hv : c.valid = true)
    (hidx : it.blockIdx = c.blockIdx) (hitv : it.valid = true) (hcur : it.current = c.current) :
    Follows (fun _ => False) StandsAt (loadAt t t.blockAt c) (t.loadBlock it) := by
  unfold loadAt loadBlock blockAt
  rw [hidx]
  cases hie : t.index[c.blockIdx]? with
  | none =>
    rw [if_pos (List.getElem?_eq_none_iff.1 hie)]
    exact .ok (.of_invalid rfl rfl)
  | some ie =>
    rw [if_neg (not_le.2 (List.getElem?_eq_some_iff.1 hie).1)]
    refine (Follows.refl _ (t.readBlock ie)).bind fun block block' hblock => ?_
    subst hblock
    split
    · exact .ok (.of_invalid rfl rfl)
    · refine .ok ⟨hv.trans hitv.symm, fun _ => ⟨Nat.zero_le _, ?_⟩⟩
      obtain ⟨idx, rest, valid, current⟩ := it
      subst hidx hitv hcur
      rfl

theorem turnAt_follows (t : SSTable) {c : Cursor} {it : Iterator} (h : StandsAt c it)
    (hv : c.valid = true) :
    Follows (fun _ => False) StandsAt (turnAt t t.blockAt c) (t.nextBlock it) := by
  obtain ⟨hpos, rfl⟩ := h.2 hv
  unfold turnAt nextBlock
  simp only [List.length_drop]
  by_cases hend : c.block.length < c.pos + entryHdr t.footer.formatVersion
  · rw [if_pos hend, if_pos (by omega)]
    exact loadAt_follows t hv rfl rfl rfl
  · rw [if_neg hend, if_neg (by omega)]
    exact .ok h

theorem parseAt_follows (t : SSTable) {c : Cursor} {it : Iterator} (h : StandsAt c it) :
    Follows (fun _ => False) StandsAt (parseAt t t.blockAt c) (t.parseEntry it) := by
  unfold parseAt parseEntry
  by_cases hv : c.valid = true
  · rw [if_neg (by simp [hv]), if_neg (by simp [← h.1, hv])]
    refine (turnAt_follows t h hv).bind fun c it h => ?_
    by_cases hv : c.valid = true
    · obtain ⟨hpos, rfl⟩ := h.2 hv
      rw [if_neg (by simp [hv]), if_neg (by simp)]
      simp only [List.length_drop, List.drop_drop]
      have hlen := entryLen_eq t.footer.formatVersion (c.block.drop c.pos)
      by_cases hthere : c.pos + entryLen t.footer.formatVersion (c.block.drop c.pos) ≤
          c.block.length
      · rw [entryAt_eq hthere, if_neg (by omega), if_neg (by omega)]
        refine .ok ⟨hv, fun _ => ⟨hthere, ?_⟩⟩
        simp only [entryFrom, entryLen, List.drop_drop, Nat.add_assoc]
      · rw [entryAt_short (by omega)]
        split
        · exact .same _
        · rw [if_pos (by omega)]
          exact .same _
    · rw [if_pos hv, if_pos (by simpa [← h.1] using hv)]
      exact .ok h
  · rw [if_pos hv, if_pos (by simpa [← h.1] using hv)]
    exact .ok h

theorem seekLoopAt_follows (t : SSTable) (target : Bytes) (fuel : Nat) {c : Cursor} {it : Iterator}
    (h : StandsAt c it) (hv : c.valid = true) :
    Follows (fun _ => False) StandsAt (seekLoopAt t t.blockAt target fuel c)
      (t.seekLoop target fuel it) := by
  induction fuel generalizing c it with
  | zero => exact .ok (.of_invalid rfl rfl)
  | succ fuel ih =>
    unfold seekLoopAt seekLoop
    refine (turnAt_follows t h hv).bind fun c it h => ?_
    by_cases hv : c.valid = true
    · obtain ⟨hpos, rfl⟩ := h.2 hv
      rw [if_neg (by simp [hv]), if_neg (by simp)]
      have h8 : 8 ≤ entryHdr t.footer.formatVersion := by
        rcases entryHdr_cases t.footer.formatVersion with ⟨-, h⟩ | ⟨-, h⟩ <;> omega
      simp only [List.length_drop, List.drop_drop]
      generalize hhdr : entryHdr t.footer.formatVersion = hdr at h8
      by_cases hin : c.pos + hdr ≤ c.block.length
      · have hk : bytesAt c.block (c.pos + hdr - 8) 4 =
            .ok ((c.block.drop (c.pos + (hdr - 8))).take 4) := by
          rw [← Nat.add_sub_assoc h8]
          exact bytesAt_eq (by omega)
        have hl : bytesAt c.block (c.pos + hdr - 4) 4 =
            .ok ((c.block.drop (c.pos + (hdr - 8) + 4)).take 4) := by
          rw [show c.pos + (hdr - 8) + 4 = c.pos + hdr - 4 by omega]
          exact bytesAt_eq (by omega)
        rw [if_neg (by omega), hk, hl]
        simp only [bind, Except.bind, parseHeader, hhdr, List.drop_drop, getU32Le_take]
        generalize (getU32Le (c.block.drop (c.pos + (hdr - 8)))).toNat = keylen
        generalize (getU32Le (c.block.drop (c.pos + (hdr - 8) + 4))).toNat = vallen
        by_cases hbody : c.pos + hdr + keylen + vallen ≤ c.block.length
        · rw [if_neg (by omega), if_neg (by omega), bytesAt_eq (by omega)]
          simp only
          split
          · exact parseAt_follows t h
          · have hle := Nat.mod_le (keylen + vallen) (2 ^ 32)
            refine ih ⟨hv, fun _ => ⟨by simp only; omega, ?_⟩⟩ hv
            simp only [Nat.add_assoc]
        · rw [if_pos (by omega), if_pos (by omega)]
          exact .ok (.of_invalid rfl rfl)
      · -- the lengths are the last eight bytes of the header
        rw [if_pos (by omega)]
        by_cases hk : c.pos + hdr - 8 + 4 ≤ c.block.length
        · rw [bytesAt_eq hk, bytesAt_short (show c.block.length < c.pos + hdr - 4 + 4 by omega)]
          exact .same _
        · rw [bytesAt_short (by omega)]
          exact .same _
    · rw [if_pos hv, if_pos (by simpa [← h.1] using hv)]
      exact .ok h

theorem beginAt_follows (t : SSTable) :
    Follows (fun _ => False) StandsAt (beginAt t t.blockAt) t.begin := by
  unfold beginAt begin Iterator.at
  split
  · exact .ok (.of_invalid rfl rfl)
  · refine (loadAt_follows t rfl rfl rfl rfl).bind fun c it h => ?_
    rw [← h.1]
    split
    · exact parseAt_follows t h
    · exact .ok h

theorem seekAt_follows (t : SSTable) (target : Bytes) :
    Follows (fun _ => False) StandsAt (seekAt t t.blockAt target t.iterFuel) (t.seek target) := by
  unfold seekAt seek Iterator.seeking
  split
  · exact .ok (.of_invalid rfl rfl)
  · refine (loadAt_follows t rfl rfl rfl rfl).bind fun c it h => ?_
    rw [← h.1]
    split
    · rename_i hv
      exact seekLoopAt_follows t target t.iterFuel h hv
    · exact .ok h

theorem drainAt_follows (t : SSTable) (fuel : Nat) {c : Cursor} {it : Iterator}
    (h : StandsAt c it) :
    Follows (fun _ => False) Eq (drainAt t t.blockAt fuel c) (t.drain fuel it) := by
  induction fuel generalizing c it with
  | zero => exact .ok rfl
  | succ fuel ih =>
    unfold drainAt drain
    by_cases hv : c.valid = true
    · obtain ⟨-, rfl⟩ := h.2 hv
      rw [if_neg (by simp [hv]), if_neg (by simp)]
      refine (parseAt_follows t h).bind fun c' it' h' => (ih h').bind fun es es' he => ?_
      rw [he]
      exact .ok rfl
    · rw [if_pos hv, if_pos (by simpa [← h.1] using hv)]
      exact .ok rfl

/-- The iteration from `begin()` is that of `Keystone.SSTable`. -/
theorem entriesAt_eq (t : SSTable) : entriesAt t t.blockAt = t.entries :=
  ((beginAt_follows t).bind fun _ _ h => drainAt_follows t t.iterFuel h).eq

theorem entriesFromAt_eq (t : SSTable) (target : Bytes) :
    entriesFromAt t t.blockAt target = t.entriesFrom target :=
  ((seekAt_follows t target).bind fun _ _ h => drainAt_follows t t.iterFuel h).eq

/-! ## The blocks an iterator loads -/

/-- The blocks at the given places up to the first that is empty or cannot be had, and the
    exception of the latter. -/
def loadBlocks (read : Nat → Except Fault Bytes) : List Nat → List Bytes × Option Fault
  | [] => ([], none)
  | idx :: places =>
    match read idx with
    | .error fault => ([], some fault)
    | .ok block =>
      if block.isEmpty then ([], none)
      else (block :: (loadBlocks read places).1, (loadBlocks read places).2)

/-- The blocks an iterator loads from block `idx` on. -/
def loadsFrom (t : SSTable) (read : Nat → Except Fault Bytes) (idx : Nat) :
    List Bytes × Option Fault :=
  loadBlocks read (List.range' idx (t.index.length - idx))

/-- The bytes of its block a cursor has before it. -/
def Cursor.rest (c : Cursor) : Bytes := c.block.drop c.pos

theorem Cursor.length_rest (c : Cursor) : c.rest.length = c.block.length - c.pos :=
  List.length_drop

/-- The cursor at the front of block `idx`. -/
def Cursor.onto (idx : Nat) (block : Bytes) (c : Cursor) : Cursor :=
  { c with blockIdx := idx, block := block, pos := 0 }

theorem Cursor.rest_onto (idx : Nat) (block : Bytes) (c : Cursor) :
    (c.onto idx block).rest = block := List.drop_zero

section Loads

variable (t : SSTable) (read : Nat → Except Fault Bytes) (c : Cursor)

/-- How `load_block` can come out. -/
inductive Loads : Prop
  | last (hloads : loadsFrom t read c.blockIdx = ([], none)) (c' : Cursor)
      (hinvalid : c'.valid = false) (h : loadAt t read c = .ok c')
      (hempty : c.blockIdx < t.index.length → read c.blockIdx = .ok [])
  | fault (fault : Fault) (hread : read c.blockIdx = .error fault)
      (hloads : loadsFrom t read c.blockIdx = ([], some fault))
      (h : loadAt t read c = .error fault)
  | block (block : Bytes) (hidx : c.blockIdx < t.index.length)
      (hread : read c.blockIdx = .ok block) (hne : block ≠ [])
      (hloads : loadsFrom t read c.blockIdx =
        (block :: (loadsFrom t read (c.blockIdx + 1)).1, (loadsFrom t read (c.blockIdx + 1)).2))
      (h : loadAt t read c = .ok (c.onto c.blockIdx block))

theorem loadAt_loads : Loads t read c := by
  by_cases hidx : t.index.length ≤ c.blockIdx
  · refine .last ?_ _ rfl (if_pos hidx) fun h => absurd h (not_lt.2 hidx)
    rw [loadsFrom, Nat.sub_eq_zero_of_le hidx]
    rfl
  · have hload : loadAt t read c = (read c.blockIdx >>= fun block =>
        if block.isEmpty then .ok { c with block := block, valid := false }
        else .ok { c with block := block, pos := 0 }) := if_neg hidx
    have hplaces : loadsFrom t read c.blockIdx = loadBlocks read
        (c.blockIdx :: List.range' (c.blockIdx + 1) (t.index.length - (c.blockIdx + 1))) := by
      rw [loadsFrom, ← List.range'_succ]
      congr 2
      omega
    rw [loadBlocks] at hplaces
    cases hread : read c.blockIdx with
    | error fault =>
      rw [hread] at hload hplaces
      exact .fault fault hread hplaces hload
    | ok block =>
      rw [hread] at hload hplaces
      cases block with
      | nil => exact .last hplaces _ rfl hload fun _ => hread
      | cons b block => exact .block _ (not_le.1 hidx) hread (by simp) hplaces hload

/-- How the step to the next block can come out. -/
inductive Turns : Prop
  | here (hhdr : entryHdr t.footer.formatVersion ≤ c.rest.length) (h : turnAt t read c = .ok c)
  | last (hshort : c.rest.length < entryHdr t.footer.formatVersion)
      (hloads : loadsFrom t read (c.blockIdx + 1) = ([], none)) (c' : Cursor)
      (hinvalid : c'.valid = false) (h : turnAt t read c = .ok c')
      (hempty : c.blockIdx + 1 < t.index.length → read (c.blockIdx + 1) = .ok [])
  | fault (hshort : c.rest.length < entryHdr t.footer.formatVersion) (fault : Fault)
      (hread : read (c.blockIdx + 1) = .error fault)
      (hloads : loadsFrom t read (c.blockIdx + 1) = ([], some fault))
      (h : turnAt t read c = .error fault)
  | block (hshort : c.rest.length < entryHdr t.footer.formatVersion) (block : Bytes)
      (hidx : c.blockIdx + 1 < t.index.length) (hread : read (c.blockIdx + 1) = .ok block)
      (hloads : loadsFrom t read (c.blockIdx + 1) = (block ::
        (loadsFrom t read (c.blockIdx + 1 + 1)).1, (loadsFrom t read (c.blockIdx + 1 + 1)).2))
      (h : turnAt t read c = .ok (c.onto (c.blockIdx + 1) block))

theorem turnAt_turns {c : Cursor} (hpos : c.pos ≤ c.block.length) : Turns t read c := by
  have hlen := c.length_rest
  by_cases hshort : c.rest.length < entryHdr t.footer.formatVersion
  · have hturn : turnAt t read c = loadAt t read { c with blockIdx := c.blockIdx + 1 } :=
      if_pos (by omega)
    cases loadAt_loads t read { c with blockIdx := c.blockIdx + 1 } with
    | last hloads c' hinvalid h hempty =>
      exact .last hshort hloads c' hinvalid (hturn.trans h) hempty
    | fault fault hread hloads h => exact .fault hshort fault hread hloads (hturn.trans h)
    | block block hidx hread hne hloads h =>
      exact .block hshort block hidx hread hloads (hturn.trans h)
  · exact .here (by omega) (if_neg (by omega))

end Loads

/-! ## One step of a reader -/

section Turned

variable {t : SSTable} {read : Nat → Except Fault Bytes} {c c' : Cursor}

theorem entryHdr_le_entryLen (version : UInt32) (bs : Bytes) :
    entryHdr version ≤ entryLen version bs := by
  unfold entryLen
  omega

theorem entryHdr_pos (version : UInt32) : 8 < entryHdr version := by
  rcases entryHdr_cases version with ⟨-, h⟩ | ⟨-, h⟩ <;> omega

/-- The cursor behind the entry it stands at, with `current` as its entry. -/
def Cursor.behind (version : UInt32) (current : Entry) (c : Cursor) : Cursor :=
  { c with current := current, pos := c.pos + entryLen version c.rest }

theorem Cursor.rest_behind (version : UInt32) (current : Entry) (c : Cursor) :
    (c.behind version current).rest = c.rest.drop (entryLen version c.rest) := by
  unfold rest behind
  rw [List.drop_drop]
  rfl

/-- `parse_entry` once the block is there: it faults if the entry is not. -/
theorem parseAt_turned (hv : c.valid = true) (hturn : turnAt t read c = .ok c')
    (hv' : c'.valid = true) (hpos : c'.pos ≤ c'.block.length) :
    parseAt t read c =
      if entryLen t.footer.formatVersion c'.rest ≤ c'.rest.length then
        .ok (c'.behind t.footer.formatVersion (entryFrom t.footer.formatVersion c'.rest))
      else .error .outOfBounds := by
  have hlen := c'.length_rest
  have hpos' := entryHdr_pos t.footer.formatVersion
  have hle := entryHdr_le_entryLen t.footer.formatVersion c'.rest
  unfold parseAt
  rw [if_neg (by simp [hv]), hturn]
  simp only [bind, Except.bind]
  rw [if_neg (by simp [hv'])]
  by_cases hentry : entryLen t.footer.formatVersion c'.rest ≤ c'.rest.length
  · rw [if_pos hentry, entryAt_eq (show c'.pos + entryLen _ c'.rest ≤ _ by omega)]
    rfl
  · rw [if_neg hentry, entryAt_short (show _ < c'.pos + entryLen _ c'.rest by omega)]

theorem parseAt_invalid (hv : c.valid = true) (hturn : turnAt t read c = .ok c')
    (hv' : c'.valid = false) : parseAt t read c = .ok c' := by
  unfold parseAt
  rw [if_neg (by simp [hv]), hturn]
  exact if_pos (by simp [hv'])

theorem parseAt_error (hv : c.valid = true) {fault : Fault}
    (hturn : turnAt t read c = .error fault) : parseAt t read c = .error fault := by
  unfold parseAt
  rw [if_neg (by simp [hv]), hturn]
  rfl

/-- The two lengths of an entry, as the seeking constructor reads them. -/
theorem lengthsAt_eq {version : UInt32} {block : Bytes} {pos : Nat}
    (h : pos + entryHdr version ≤ block.length) :
    ∃ keylen vallen, bytesAt block (pos + entryHdr version - 8) 4 = .ok keylen ∧
      bytesAt block (pos + entryHdr version - 4) 4 = .ok vallen ∧
      (getU32Le keylen).toNat = (parseHeader version (block.drop pos)).keylen ∧
      (getU32Le vallen).toNat = (parseHeader version (block.drop pos)).vallen := by
  have h8 := entryHdr_pos version
  refine ⟨_, _, bytesAt_eq (by omega), bytesAt_eq (by omega), ?_, ?_⟩
  · rw [getU32Le_take, Nat.add_sub_assoc (by omega), ← List.drop_drop]
    rfl
  · rw [getU32Le_take, show pos + entryHdr version - 4 = pos + (entryHdr version - 8) + 4 by omega,
      ← List.drop_drop, ← List.drop_drop]
    rfl

/-- A turn of the seek loop once the block is there: without a header it faults, and it gives up
    where the entry is not complete. -/
theorem seekLoopAt_turned (target : Bytes) (fuel : Nat) (hturn : turnAt t read c = .ok c')
    (hv' : c'.valid = true) (hpos : c'.pos ≤ c'.block.length) (hlt : c'.block.length < 2 ^ 32) :
    seekLoopAt t read target (fuel + 1) c =
      if c'.rest.length < entryHdr t.footer.formatVersion then .error .outOfBounds
      else if c'.rest.length < entryLen t.footer.formatVersion c'.rest then
        .ok { c' with pos := c'.pos + entryHdr t.footer.formatVersion, valid := false }
      else if target ≤ (entryFrom t.footer.formatVersion c'.rest).key then parseAt t read c'
      else seekLoopAt t read target fuel (c'.behind t.footer.formatVersion c'.current) := by
  have hlen := c'.length_rest
  have hpos' := entryHdr_pos t.footer.formatVersion
  rw [seekLoopAt, hturn]
  simp only [bind, Except.bind]
  rw [if_neg (by simp [hv'])]
  by_cases hshort : c'.rest.length < entryHdr t.footer.formatVersion
  · -- the lengths are the last eight bytes of the header
    rw [if_pos hshort]
    by_cases hk : c'.pos + entryHdr t.footer.formatVersion - 8 + 4 ≤ c'.block.length
    · rw [bytesAt_eq hk, bytesAt_short (show c'.block.length < _ - 4 + 4 by omega)]
    · rw [bytesAt_short (by omega)]
  · obtain ⟨keylen, vallen, hk, hl, hkey, hval⟩ :=
      lengthsAt_eq (show c'.pos + entryHdr t.footer.formatVersion ≤ c'.block.length by omega)
    have hentry : entryLen t.footer.formatVersion c'.rest = _ := entryLen_eq _ (c'.block.drop c'.pos)
    rw [if_neg hshort, hk, hl]
    simp only [hkey, hval]
    by_cases hbody : c'.rest.length < entryLen t.footer.formatVersion c'.rest
    · rw [if_pos hbody, if_pos (by omega)]
    · rw [if_neg hbody, if_neg (by omega), bytesAt_eq (by omega), Nat.mod_eq_of_lt (by omega)]
      simp only [entryFrom, Cursor.rest, Cursor.behind, List.drop_drop, entryLen, Nat.add_assoc,
        ge_iff_le]

theorem seekLoopAt_invalid (target : Bytes) (fuel : Nat) (hturn : turnAt t read c = .ok c')
    (hv' : c'.valid = false) : seekLoopAt t read target (fuel + 1) c = .ok c' := by
  rw [seekLoopAt, hturn]
  exact if_pos (by simp [hv'])

theorem seekLoopAt_error (target : Bytes) (fuel : Nat) {fault : Fault}
    (hturn : turnAt t read c = .error fault) :
    seekLoopAt t read target (fuel + 1) c = .error fault := by
  rw [seekLoopAt, hturn]
  rfl

end Turned

/-! ## Staying inside -/

/-- Bytes that are whole entries and a rest too short for a header. -/
inductive Whole (version : UInt32) : Bytes → Prop
  | tail {bs : Bytes} : bs.length < entryHdr version → Whole version bs
  | entry {bs : Bytes} : entryLen version bs ≤ bs.length →
      Whole version (bs.drop (entryLen version bs)) → Whole version bs

theorem whole_iff {version : UInt32} {bs : Bytes} (hhdr : entryHdr version ≤ bs.length) :
    Whole version bs ↔
      entryLen version bs ≤ bs.length ∧ Whole version (bs.drop (entryLen version bs)) := by
  constructor
  · intro h
    cases h with
    | tail hlt => omega
    | entry hle hrest => exact ⟨hle, hrest⟩
  · exact fun h => .entry h.1 h.2

/-- Where an entry is read without a test, it has to be there. -/
theorem whole_front_iff {version : UInt32} (bs : Bytes) :
    entryHdr version ≤ bs.length ∧ Whole version bs ↔
      entryLen version bs ≤ bs.length ∧ Whole version (bs.drop (entryLen version bs)) := by
  have hle := entryHdr_le_entryLen version bs
  constructor
  · exact fun h => (whole_iff h.1).1 h.2
  · exact fun h => ⟨by omega, .entry h.1 h.2⟩

/-- Blocks an iterator can go on into: `parse_entry` reads the first entry of such a block without
    a test, and the others behind it. -/
def Continues (version : UInt32) (blocks : List Bytes) : Prop :=
  ∀ block ∈ blocks, entryHdr version ≤ block.length ∧ Whole version block

theorem continues_cons {version : UInt32} {block : Bytes} {blocks : List Bytes} :
    Continues version (block :: blocks) ↔
      (entryHdr version ≤ block.length ∧ Whole version block) ∧ Continues version blocks :=
  List.forall_mem_cons

/-- Blocks over which an iteration from the front of the first stays inside; only of the first
    block it is tested that a header is there. -/
def Iterable (version : UInt32) : List Bytes → Prop
  | [] => True
  | block :: blocks => Whole version block ∧ Continues version blocks

/-- Bytes and the blocks behind them in which a search for `target` stays inside, and the
    iteration from where it stops. -/
inductive SeekSafe (version : UInt32) (target : Bytes) : Bytes → List Bytes → Prop
  /-- The end of the last block. -/
  | last {bs : Bytes} : bs.length < entryHdr version → SeekSafe version target bs []
  /-- The end of a block; the header at the front of the next is not tested. -/
  | turn {bs block : Bytes} {blocks : List Bytes} : bs.length < entryHdr version →
      entryHdr version ≤ block.length → SeekSafe version target block blocks →
      SeekSafe version target bs (block :: blocks)
  /-- An entry that is not complete: the search tests for it and gives up. -/
  | cut {bs : Bytes} {blocks : List Bytes} : entryHdr version ≤ bs.length →
      bs.length < entryLen version bs → SeekSafe version target bs blocks
  /-- The entry to stop at. -/
  | found {bs : Bytes} {blocks : List Bytes} : entryHdr version ≤ bs.length →
      target ≤ (entryFrom version bs).key → Whole version bs → Continues version blocks →
      SeekSafe version target bs blocks
  /-- An entry in front of it. -/
  | skip {bs : Bytes} {blocks : List Bytes} : entryLen version bs ≤ bs.length →
      (entryFrom version bs).key < target →
      SeekSafe version target (bs.drop (entryLen version bs)) blocks →
      SeekSafe version target bs blocks

section SeekSafe

variable {version : UInt32} {target bs : Bytes} {blocks : List Bytes}

theorem seekSafe_short_iff {block : Bytes} (hshort : bs.length < entryHdr version) :
    SeekSafe version target bs (block :: blocks) ↔
      entryHdr version ≤ block.length ∧ SeekSafe version target block blocks := by
  have hle := entryHdr_le_entryLen version bs
  constructor
  · intro h
    cases h with
    | turn _ hhdr h => exact ⟨hhdr, h⟩
    | cut hhdr => omega
    | found hhdr => omega
    | skip hlen => omega
  · exact fun h => .turn hshort h.1 h.2

theorem seekSafe_found_iff (hlen : entryLen version bs ≤ bs.length)
    (hkey : target ≤ (entryFrom version bs).key) :
    SeekSafe version target bs blocks ↔ Whole version bs ∧ Continues version blocks := by
  have hle := entryHdr_le_entryLen version bs
  constructor
  · intro h
    cases h with
    | last hshort => omega
    | turn hshort => omega
    | cut _ hcut => omega
    | found _ _ hwhole hcont => exact ⟨hwhole, hcont⟩
    | skip _ hlt => exact absurd hkey (not_le.2 hlt)
  · exact fun h => .found (by omega) hkey h.1 h.2

theorem seekSafe_skip_iff (hlen : entryLen version bs ≤ bs.length)
    (hkey : (entryFrom version bs).key < target) :
    SeekSafe version target bs blocks ↔
      SeekSafe version target (bs.drop (entryLen version bs)) blocks := by
  have hle := entryHdr_le_entryLen version bs
  constructor
  · intro h
    cases h with
    | last hshort => omega
    | turn hshort => omega
    | cut _ hcut => omega
    | found _ hge => exact absurd hge (not_le.2 hkey)
    | skip _ _ h => exact h
  · exact .skip hlen hkey

/-- Over whole blocks every search stays inside. -/
theorem Whole.seekSafe (h : Whole version bs) (hcont : Continues version blocks) :
    SeekSafe version target bs blocks := by
  induction blocks generalizing bs with
  | nil =>
    induction h with
    | tail hshort => exact .last hshort
    | @entry bs hlen hrest ih =>
      have hle := entryHdr_le_entryLen version bs
      by_cases hkey : (entryFrom version bs).key < target
      · exact .skip hlen hkey ih
      · exact .found (by omega) (not_lt.1 hkey) (.entry hlen hrest) hcont
  | cons block blocks ihb =>
    obtain ⟨⟨hhdr, hblock⟩, hblocks⟩ := List.forall_mem_cons.1 hcont
    induction h with
    | tail hshort => exact .turn hshort hhdr (ihb hblock hblocks)
    | @entry bs hlen hrest ih =>
      have hle := entryHdr_le_entryLen version bs
      by_cases hkey : (entryFrom version bs).key < target
      · exact .skip hlen hkey ih
      · exact .found (by omega) (not_lt.1 hkey) (.entry hlen hrest) hcont

end SeekSafe

section Inside

variable {t : SSTable} {read : Nat → Except Fault Bytes} {bound : Nat} {c c' : Cursor}

/-- The iteration comes to its end, or an exception ends it; no read of it faults. -/
inductive Ends (t : SSTable) (read : Nat → Except Fault Bytes) : Cursor → Prop
  | done {c : Cursor} : c.valid = false → Ends t read c
  | throws {c : Cursor} {what : String} : parseAt t read c = .error (.thrown what) → Ends t read c
  | next {c c' : Cursor} : parseAt t read c = .ok c' → Ends t read c' → Ends t read c

/-- A call that throws, or after which the iteration ends. -/
def Completes (t : SSTable) (read : Nat → Except Fault Bytes) (r : Except Fault Cursor) : Prop :=
  (∃ what, r = .error (.thrown what)) ∨ ∃ c, r = .ok c ∧ Ends t read c

@[simp] theorem completes_ok : Completes t read (.ok c) ↔ Ends t read c := by
  simp [Completes]

@[simp] theorem completes_outOfBounds : ¬ Completes t read (.error .outOfBounds) := by
  simp [Completes]

theorem ends_iff_completes (hv : c.valid = true) :
    Ends t read c ↔ Completes t read (parseAt t read c) := by
  constructor
  · intro h
    cases h with
    | done hinvalid => simp [hv] at hinvalid
    | throws h => exact Or.inl ⟨_, h⟩
    | next h hends => exact Or.inr ⟨_, h, hends⟩
  · rintro (⟨what, h⟩ | ⟨c', h, hends⟩)
    · exact .throws h
    · exact .next h hends

/-- What `read_block` can come back with: a block of at most `bound` bytes, which one `pread`
    transfers, or an exception. -/
structure Reads (read : Nat → Except Fault Bytes) (bound : Nat) : Prop where
  size : ∀ idx block, read idx = .ok block → block.length ≤ bound
  short : ∀ idx block, read idx = .ok block → block.length < 2 ^ 32
  throws : ∀ idx, read idx ≠ .error .outOfBounds

theorem Reads.completes_error (hr : Reads read bound) {idx : Nat} {fault : Fault}
    (h : read idx = .error fault) : Completes t read (.error fault) := by
  cases fault with
  | thrown what => exact Or.inl ⟨what, rfl⟩
  | outOfBounds => exact absurd h (hr.throws idx)

/-- A cursor in a block that was read. -/
structure Cursor.Inside (bound : Nat) (c : Cursor) : Prop where
  valid : c.valid = true
  pos : c.pos ≤ c.block.length
  size : c.block.length ≤ bound
  short : c.block.length < 2 ^ 32

theorem Cursor.Inside.behind (h : c.Inside bound) {version : UInt32} (current : Entry)
    (hlen : entryLen version c.rest ≤ c.rest.length) :
    (c.behind version current).Inside bound where
  valid := h.valid
  pos := by
    have hpos := h.pos
    rw [c.length_rest] at hlen
    show c.pos + entryLen version c.rest ≤ c.block.length
    omega
  size := h.size
  short := h.short

theorem Reads.inside (hr : Reads read bound) {idx : Nat} {block : Bytes}
    (h : read idx = .ok block) (hv : c.valid = true) :
    (c.onto idx block).Inside bound :=
  ⟨hv, Nat.zero_le _, hr.size _ _ h, hr.short _ _ h⟩

/-- A bound on the bytes an iteration still has before it. -/
def bytesLeft (t : SSTable) (bound : Nat) (c : Cursor) : Nat :=
  (t.index.length - c.blockIdx) * (bound + 1) + c.rest.length

theorem bytesLeft_behind (t : SSTable) (bound : Nat) {c : Cursor} {version : UInt32}
    (current : Entry) (hlen : entryLen version c.rest ≤ c.rest.length) :
    bytesLeft t bound (c.behind version current) < bytesLeft t bound c := by
  have hpos := entryHdr_pos version
  have hle := entryHdr_le_entryLen version c.rest
  unfold bytesLeft
  rw [c.rest_behind, List.length_drop]
  show (t.index.length - c.blockIdx) * (bound + 1) + _ < _
  omega

/-- The block that is left behind was worth more than the new one is long. -/
theorem bytesLeft_turn (c : Cursor) {block : Bytes} (hidx : c.blockIdx + 1 < t.index.length)
    (hsize : block.length ≤ bound) :
    bytesLeft t bound (c.onto (c.blockIdx + 1) block) < bytesLeft t bound c := by
  have hmul : (t.index.length - c.blockIdx) * (bound + 1) =
      (t.index.length - (c.blockIdx + 1)) * (bound + 1) + (bound + 1) := by
    rw [← Nat.succ_mul]
    congr 1
    omega
  unfold bytesLeft
  rw [c.rest_onto]
  simp only [Cursor.onto]
  omega

/-- **The iteration from a cursor stays inside and ends** just when the rest of its block and the
    blocks it loads are whole. -/
theorem parseAt_completes_iff (hr : Reads read bound) (hin : c.Inside bound) :
    Completes t read (parseAt t read c) ↔ Whole t.footer.formatVersion c.rest ∧
      Continues t.footer.formatVersion (loadsFrom t read (c.blockIdx + 1)).1 := by
  induction hn : bytesLeft t bound c using Nat.strong_induction_on generalizing c with
  | _ n ih =>
    -- an entry is read at `c'`, which is `c` itself or the front of the next block
    have hentry : ∀ {c' : Cursor}, turnAt t read c = .ok c' → c'.Inside bound →
        bytesLeft t bound c' ≤ n →
        (Completes t read (parseAt t read c) ↔
          (entryLen t.footer.formatVersion c'.rest ≤ c'.rest.length ∧
            Whole t.footer.formatVersion
              (c'.rest.drop (entryLen t.footer.formatVersion c'.rest))) ∧
          Continues t.footer.formatVersion (loadsFrom t read (c'.blockIdx + 1)).1) := by
      intro c' hturn hin' hleft
      rw [parseAt_turned hin.valid hturn hin'.valid hin'.pos]
      by_cases hlen : entryLen t.footer.formatVersion c'.rest ≤ c'.rest.length
      · have hless := lt_of_lt_of_le (bytesLeft_behind t bound
          (entryFrom t.footer.formatVersion c'.rest) hlen) hleft
        rw [if_pos hlen, completes_ok, ends_iff_completes (hin'.behind _ hlen).valid,
          ih _ hless (hin'.behind _ hlen) rfl, c'.rest_behind]
        exact and_congr_left' ⟨fun h => ⟨hlen, h⟩, fun h => h.2⟩
      · rw [if_neg hlen]
        exact iff_of_false completes_outOfBounds fun h => hlen h.1.1
    cases turnAt_turns t read hin.pos with
    | here hhdr hturn =>
      rw [hentry hturn hin hn.le, whole_iff hhdr]
    | last hshort hloads c' hinvalid hturn =>
      rw [parseAt_invalid hin.valid hturn hinvalid, hloads, completes_ok]
      exact iff_of_true (.done hinvalid) ⟨.tail hshort, by simp [Continues]⟩
    | fault hshort fault hread hloads hturn =>
      rw [parseAt_error hin.valid hturn, hloads]
      exact iff_of_true (hr.completes_error hread) ⟨.tail hshort, by simp [Continues]⟩
    | block hshort block hidx hread hloads hturn =>
      have hleft := bytesLeft_turn c hidx (hr.size _ _ hread)
      have hwhole : Whole t.footer.formatVersion c.rest := .tail hshort
      rw [hentry hturn (hr.inside hread hin.valid) (hn ▸ hleft.le), hloads, and_iff_right hwhole,
        continues_cons, c.rest_onto]
      exact and_congr_left' (whole_front_iff block).symm

/-- **The seeking constructor** stays inside, and the iteration from its entry on, just when the
    bytes and the blocks before it are safe for the search. -/
theorem seekLoopAt_completes_iff (hr : Reads read bound) (target : Bytes) {fuel : Nat}
    (hin : c.Inside bound) (hfuel : bytesLeft t bound c < fuel) :
    Completes t read (seekLoopAt t read target fuel c) ↔
      SeekSafe t.footer.formatVersion target c.rest (loadsFrom t read (c.blockIdx + 1)).1 := by
  induction fuel generalizing c with
  | zero => omega
  | succ fuel ih =>
    have hentry : ∀ {c' : Cursor}, turnAt t read c = .ok c' → c'.Inside bound →
        bytesLeft t bound c' ≤ fuel → entryHdr t.footer.formatVersion ≤ c'.rest.length →
        (Completes t read (seekLoopAt t read target (fuel + 1) c) ↔
          SeekSafe t.footer.formatVersion target c'.rest
            (loadsFrom t read (c'.blockIdx + 1)).1) := by
      intro c' hturn hin' hleft hhdr
      rw [seekLoopAt_turned target fuel hturn hin'.valid hin'.pos hin'.short,
        if_neg (not_lt.2 hhdr)]
      by_cases hcut : c'.rest.length < entryLen t.footer.formatVersion c'.rest
      · rw [if_pos hcut, completes_ok]
        exact iff_of_true (.done rfl) (.cut hhdr hcut)
      · have hlen := not_lt.1 hcut
        rw [if_neg hcut]
        by_cases hkey : target ≤ (entryFrom t.footer.formatVersion c'.rest).key
        · rw [if_pos hkey, parseAt_completes_iff hr hin', seekSafe_found_iff hlen hkey]
        · have hless := bytesLeft_behind t bound c'.current hlen
          rw [if_neg hkey, ih (hin'.behind _ hlen) (by omega),
            seekSafe_skip_iff hlen (not_le.1 hkey), c'.rest_behind]
          rfl
    cases turnAt_turns t read hin.pos with
    | here hhdr hturn => exact hentry hturn hin (by omega) hhdr
    | last hshort hloads c' hinvalid hturn =>
      rw [seekLoopAt_invalid target fuel hturn hinvalid, hloads, completes_ok]
      exact iff_of_true (.done hinvalid) (.last hshort)
    | fault hshort fault hread hloads hturn =>
      rw [seekLoopAt_error target fuel hturn, hloads]
      exact iff_of_true (hr.completes_error hread) (.last hshort)
    | block hshort block hidx hread hloads hturn =>
      have hleft := bytesLeft_turn c hidx (hr.size _ _ hread)
      have hin' := hr.inside hread hin.valid
      have hrest := c.rest_onto (c.blockIdx + 1) block
      rw [hloads, seekSafe_short_iff hshort]
      by_cases hhdr : entryHdr t.footer.formatVersion ≤ block.length
      · rw [hentry hturn hin' (by omega) (by rwa [hrest]), and_iff_right hhdr, hrest]
        rfl
      · rw [seekLoopAt_turned target fuel hturn hin'.valid hin'.pos hin'.short,
          if_pos (by rw [hrest]; exact not_le.1 hhdr)]
        exact iff_of_false completes_outOfBounds fun h => hhdr h.1

/-- With a turn for every byte the bound of the loop is never reached. -/
theorem seekLoopAt_fuel (hr : Reads read bound) (target : Bytes) {fuel fuel' : Nat}
    (hin : c.Inside bound) (hf : bytesLeft t bound c < fuel) (hf' : bytesLeft t bound c < fuel') :
    seekLoopAt t read target fuel c = seekLoopAt t read target fuel' c := by
  induction fuel generalizing fuel' c with
  | zero => omega
  | succ fuel ih =>
    obtain ⟨fuel', rfl⟩ : ∃ f, fuel' = f + 1 := ⟨fuel' - 1, by omega⟩
    have hentry : ∀ {c' : Cursor}, turnAt t read c = .ok c' → c'.Inside bound →
        bytesLeft t bound c' ≤ bytesLeft t bound c →
        seekLoopAt t read target (fuel + 1) c = seekLoopAt t read target (fuel' + 1) c := by
      intro c' hturn hin' hleft
      rw [seekLoopAt_turned target fuel hturn hin'.valid hin'.pos hin'.short,
        seekLoopAt_turned target fuel' hturn hin'.valid hin'.pos hin'.short]
      split
      · rfl
      · split
        · rfl
        · rename_i hcut
          have hlen := not_lt.1 hcut
          have hless := bytesLeft_behind t bound c'.current hlen
          rw [@ih _ fuel' (hin'.behind _ hlen) (by omega) (by omega)]
    cases turnAt_turns t read hin.pos with
    | here hhdr hturn => exact hentry hturn hin le_rfl
    | last hshort hloads c' hinvalid hturn =>
      rw [seekLoopAt_invalid target fuel hturn hinvalid,
        seekLoopAt_invalid target fuel' hturn hinvalid]
    | fault hshort fault hread hloads hturn =>
      rw [seekLoopAt_error target fuel hturn, seekLoopAt_error target fuel' hturn]
    | block hshort block hidx hread hloads hturn =>
      exact hentry hturn (hr.inside hread hin.valid) (bytesLeft_turn c hidx (hr.size _ _ hread)).le

end Inside

/-! ## The blocks of a file -/

/-- A block is a part of the file that one `pread` transfers. -/
theorem readBlock_length_le {t : SSTable} {ie : IndexEntry} {block : Bytes}
    (h : t.readBlock ie = .ok block) :
    block.length ≤ t.file.length ∧ block.length ≤ maxTransfer := by
  have hbuf : ((pread t.file ie.length ie.offset).getD []).length ≤ t.file.length ∧
      ((pread t.file ie.length ie.offset).getD []).length ≤ maxTransfer := by
    cases hp : pread t.file ie.length ie.offset with
    | none => exact ⟨Nat.zero_le _, Nat.zero_le _⟩
    | some buf =>
      obtain ⟨hlen, hle⟩ := pread_length_le hp
      exact hlen ▸ hle
  obtain ⟨-, -, h⟩ := bind_eq_ok h
  simp only at h
  split at h
  · split at h
    · simp at h
    · rw [← Except.ok.inj h, List.length_take]
      omega
  · rwa [← Except.ok.inj h]

theorem readBlock_ne_outOfBounds (t : SSTable) (ie : IndexEntry) :
    t.readBlock ie ≠ .error .outOfBounds := by
  unfold readBlock allocate
  split
  · simp [bind, Except.bind]
  · simp only [bind, Except.bind]
    split
    · split <;> simp
    · simp

theorem reads_blockAt (t : SSTable) : Reads t.blockAt t.file.length where
  size idx block h := by
    unfold blockAt at h
    split at h
    · rw [← Except.ok.inj h]
      exact Nat.zero_le _
    · exact (readBlock_length_le h).1
  short idx block h := by
    have hlt : maxTransfer < 2 ^ 32 := by decide
    unfold blockAt at h
    split at h
    · rw [← Except.ok.inj h]
      exact Nat.two_pow_pos 32
    · exact (readBlock_length_le h).2.trans_lt hlt
  throws idx := by
    unfold blockAt
    split
    · simp
    · exact t.readBlock_ne_outOfBounds _

/-- An iteration from `begin()` stays inside the blocks it loads. -/
theorem beginAt_completes_iff {t : SSTable} {read : Nat → Except Fault Bytes} {bound : Nat}
    (hr : Reads read bound) : Completes t read (beginAt t read) ↔
      Iterable t.footer.formatVersion (loadsFrom t read 0).1 := by
  unfold beginAt
  split
  · rename_i hempty
    rw [completes_ok, loadsFrom, List.isEmpty_iff.1 hempty]
    exact iff_of_true (.done rfl) trivial
  · cases loadAt_loads t read { blockIdx := 0 } with
    | last hloads c' hinvalid hload =>
      simp only [hload, bind, Except.bind, hinvalid, hloads]
      exact iff_of_true (completes_ok.2 (.done hinvalid)) trivial
    | fault fault hread hloads hload =>
      simp only [hload, bind, Except.bind, hloads]
      exact iff_of_true (hr.completes_error hread) trivial
    | block block hidx hread hne hloads hload =>
      have hin := hr.inside (c := { blockIdx := 0 }) hread rfl
      simp only [hload, bind, Except.bind]
      rw [if_pos hin.valid, parseAt_completes_iff hr hin, Cursor.rest_onto, hloads]
      rfl

/-- The blocks a search for `target` loads, and that the search and the iteration from its entry
    on stay inside of them. -/
def Seekable (t : SSTable) (read : Nat → Except Fault Bytes) (target : Bytes) : Prop :=
  match (loadsFrom t read ((t.findBlockIdx target).getD 0)).1 with
  | [] => True
  | block :: blocks => SeekSafe t.footer.formatVersion target block blocks

theorem bytesLeft_onto (t : SSTable) (idx : Nat) {block : Bytes}
    (hsize : block.length ≤ t.file.length) (c : Cursor) :
    bytesLeft t t.file.length (c.onto idx block) < t.iterFuel := by
  have hmul := Nat.mul_le_mul_right (t.file.length + 1) (Nat.sub_le t.index.length idx)
  unfold bytesLeft iterFuel
  rw [c.rest_onto, Nat.succ_mul]
  simp only [Cursor.onto]
  omega

theorem seekAt_completes_iff {t : SSTable} {read : Nat → Except Fault Bytes}
    (hr : Reads read t.file.length) (target : Bytes) {fuel : Nat} (hfuel : t.iterFuel ≤ fuel) :
    seekAt t read target fuel = seekAt t read target t.iterFuel ∧
      (Completes t read (seekAt t read target fuel) ↔ Seekable t read target) := by
  unfold seekAt Seekable
  split
  · rename_i hempty
    rw [completes_ok, loadsFrom, List.isEmpty_iff.1 hempty]
    exact ⟨rfl, iff_of_true (.done rfl) (by simp [loadBlocks])⟩
  · cases loadAt_loads t read { blockIdx := (t.findBlockIdx target).getD 0 } with
    | last hloads c' hinvalid hload =>
      simp only [hload, bind, Except.bind, hinvalid, hloads]
      exact ⟨rfl, iff_of_true (completes_ok.2 (.done hinvalid)) trivial⟩
    | fault fault hread hloads hload =>
      simp only [hload, bind, Except.bind, hloads, true_and]
      exact iff_of_true (hr.completes_error hread) trivial
    | block block hidx hread hne hloads hload =>
      have hin := hr.inside (c := { blockIdx := (t.findBlockIdx target).getD 0 }) hread rfl
      have hleft := t.bytesLeft_onto ((t.findBlockIdx target).getD 0) (hr.size _ _ hread)
        { blockIdx := (t.findBlockIdx target).getD 0 }
      simp only [hload, bind, Except.bind, hloads]
      rw [if_pos hin.valid, if_pos hin.valid]
      refine ⟨seekLoopAt_fuel hr target hin (hleft.trans_le hfuel) hleft, ?_⟩
      rw [seekLoopAt_completes_iff hr target hin (hleft.trans_le hfuel), Cursor.rest_onto]
      rfl

/-- **When the readers stay inside the blocks** of a table. `get` always does. An iteration from
    `begin()` does, and ends, just when the blocks it loads consist of whole entries and all but
    the first begin with one; one from `seek(target)` just when this holds from its entry on and
    every block the search goes on into begins with a header. -/
theorem reads_in_bounds_iff (t : SSTable) :
    (∀ key snapshotSeq, t.getAt t.blockAt key snapshotSeq ≠ .error .outOfBounds) ∧
    (Completes t t.blockAt (beginAt t t.blockAt) ↔
      Iterable t.footer.formatVersion (loadsFrom t t.blockAt 0).1) ∧
    ∀ target, ∀ fuel ≥ t.iterFuel,
      seekAt t t.blockAt target fuel = seekAt t t.blockAt target t.iterFuel ∧
      (Completes t t.blockAt (seekAt t t.blockAt target fuel) ↔ Seekable t t.blockAt target) :=
  ⟨t.getAt_in_bounds t.reads_blockAt.throws, beginAt_completes_iff t.reads_blockAt,
    fun target _ hfuel => seekAt_completes_iff t.reads_blockAt target hfuel⟩

/-! ## Files of the writer, and others -/

/-- Every block that can be read is empty, or begins with an entry and has only whole ones. -/
def WholeBlocks (version : UInt32) (read : Nat → Except Fault Bytes) : Prop :=
  ∀ idx block, read idx = .ok block → block ≠ [] →
    entryHdr version ≤ block.length ∧ Whole version block

/-- A block that is loaded was read. -/
theorem mem_loadBlocks {read : Nat → Except Fault Bytes} {places : List Nat} {block : Bytes}
    (h : block ∈ (loadBlocks read places).1) : ∃ idx, read idx = .ok block ∧ block ≠ [] := by
  induction places with
  | nil => simp [loadBlocks] at h
  | cons idx places ih =>
    unfold loadBlocks at h
    cases hread : read idx with
    | error fault => simp [hread] at h
    | ok first =>
      cases first with
      | nil => simp [hread] at h
      | cons b bs =>
        simp only [hread, List.isEmpty_cons, Bool.false_eq_true, if_false, List.mem_cons] at h
        rcases h with rfl | h
        · exact ⟨idx, hread, by simp⟩
        · exact ih h

theorem WholeBlocks.continues {version : UInt32} {read : Nat → Except Fault Bytes}
    (h : WholeBlocks version read) (t : SSTable) (idx : Nat) :
    Continues version (loadsFrom t read idx).1 := by
  intro block hmem
  obtain ⟨i, hread, hne⟩ := mem_loadBlocks hmem
  exact h i block hread hne

/-- Over whole blocks all readers stay inside. -/
theorem WholeBlocks.iterable {version : UInt32} {read : Nat → Except Fault Bytes}
    (h : WholeBlocks version read) (t : SSTable) (idx : Nat) :
    Iterable version (loadsFrom t read idx).1 := by
  have hcont := h.continues t idx
  generalize (loadsFrom t read idx).1 = blocks at hcont ⊢
  cases blocks with
  | nil => trivial
  | cons block blocks =>
    obtain ⟨hblock, hblocks⟩ := continues_cons.1 hcont
    exact ⟨hblock.2, hblocks⟩

theorem WholeBlocks.seekable {t : SSTable} {read : Nat → Except Fault Bytes}
    (h : WholeBlocks t.footer.formatVersion read) (target : Bytes) : Seekable t read target := by
  have hcont := h.continues t ((t.findBlockIdx target).getD 0)
  unfold Seekable
  split
  · trivial
  · rename_i block blocks hloads
    rw [hloads] at hcont
    obtain ⟨hblock, hblocks⟩ := continues_cons.1 hcont
    exact hblock.2.seekSafe hblocks

theorem whole_encodeEntries {b : List Entry} (hf : ∀ e ∈ b, e.Fits) :
    Whole kFormatVersion (encodeEntries b) := by
  induction b with
  | nil => exact .tail (by decide)
  | cons e b ih =>
    have hlen : entryLen kFormatVersion (encodeEntries (e :: b)) =
        (SSTableWriter.encodeEntry e).length := by
      rw [encodeEntries, List.flatMap_cons, encodeEntry_eq, List.append_assoc,
        entryLen, parseHeader_entryHeader (hf e List.mem_cons_self), entryHdr_three,
        List.length_append, List.length_append, entryHeader_length, Nat.add_assoc]
    have hcons : encodeEntries (e :: b) =
        SSTableWriter.encodeEntry e ++ encodeEntries b := List.flatMap_cons
    refine .entry ?_ ?_
    · rw [hlen, hcons, List.length_append]
      exact Nat.le_add_right _ _
    · rw [hlen, hcons, List.drop_left]
      exact ih fun x hx => hf x (List.mem_cons_of_mem e hx)

/-- The blocks the writer makes are whole. -/
theorem wholeBlocks_tableOf {es : List Entry} (hmax : (tableFile es).length ≤ maxFileSize) :
    WholeBlocks (tableOf es).footer.formatVersion (tableOf es).blockAt := by
  intro idx block hread hne
  unfold blockAt at hread
  split at hread
  · exact absurd (Except.ok.inj hread).symm hne
  · rename_i ie hie
    have hidx : idx < (blocksOf es).length := by
      rw [← index_length]
      exact (List.getElem?_eq_some_iff.1 hie).1
    have hsplit : blocksOf es =
        (blocksOf es).take idx ++ (blocksOf es)[idx] :: (blocksOf es).drop (idx + 1) := by
      rw [← List.drop_eq_getElem_cons hidx, List.take_append_drop]
    obtain ⟨ie', hie', -, hblock⟩ := readBlock_tableOf hmax hsplit
    rw [List.length_take_of_le hidx.le, hie] at hie'
    obtain rfl := Option.some.inj hie'
    obtain rfl := Except.ok.inj (hread.symm.trans hblock)
    have hmem : (blocksOf es)[idx] ∈ blocksOf es := List.getElem_mem hidx
    refine ⟨?_, whole_encodeEntries fun e he => readBack_fits he⟩
    have hback : readBack (blocksOf es)[idx] ≠ [] := by
      intro hnil
      rw [hnil] at hne
      exact hne rfl
    obtain ⟨e, b, hb⟩ := List.exists_cons_of_ne_nil hback
    rw [hb, encodeEntries, List.flatMap_cons, List.length_append, version_tableOf,
      entryHdr_three]
    exact (encodeEntry_length_ge e).trans (Nat.le_add_right _ _)

/-- The table of one entry: all three readers stay inside. -/
theorem reads_in_bounds_written : ∃ t,
    (writeTable [⟨[7], [8], false, 1⟩]).map SSTable.open = some (.ok t) ∧
    t.getAt t.blockAt [7] 1 ≠ .error .outOfBounds ∧ Completes t t.blockAt (beginAt t t.blockAt) ∧
    ∀ target, Completes t t.blockAt (seekAt t t.blockAt target t.iterFuel) := by
  have hmax : (tableFile [⟨[7], [8], false, 1⟩]).length ≤ maxFileSize := by decide +kernel
  have hwhole := wholeBlocks_tableOf hmax
  refine ⟨tableOf [⟨[7], [8], false, 1⟩], ?_, ?_⟩
  · rw [writeTable_eq, if_pos hmax, Option.map_some, open_tableFile (by decide +kernel) hmax]
  · generalize tableOf [⟨[7], [8], false, 1⟩] = t at hwhole ⊢
    obtain ⟨hget, hbegin, hseek⟩ := reads_in_bounds_iff t
    exact ⟨hget [7] 1, hbegin.2 (hwhole.iterable t 0),
      fun target => (hseek target t.iterFuel le_rfl).2.2 (hwhole.seekable target)⟩

/-- The index of blocks that stand one behind the other from `off` on. -/
def plainIndex (off : Nat) : List (Bytes × Bytes) → List IndexEntry
  | [] => []
  | (firstKey, payload) :: blocks =>
    ⟨firstKey, UInt64.ofNat off, UInt64.ofNat (payload.length + 4)⟩ ::
      plainIndex (off + payload.length + 4) blocks

/-- A table of the given first keys and block payloads, without a filter. -/
def plainTable (blocks : List (Bytes × Bytes)) : SSTable :=
  let payloads := blocks.flatMap fun p => p.2 ++ putU32Le (crc32 p.2)
  let index := plainIndex 0 blocks
  let footer : Footer := ⟨UInt64.ofNat payloads.length, 0, 1, 1, kFormatVersion, kMagic⟩
  ⟨payloads ++ index.flatMap SSTableWriter.encodeIndexEntry ++ SSTableWriter.encodeFooter footer,
    footer, index, none⟩

/-- A header that promises a key of one byte, at the end of its block. -/
def cutEntry : Bytes := [0] ++ putU64Le 1 ++ putU32Le 1 ++ putU32Le 0

/-- **The iterator leaves its block**: `begin()` on a block that ends behind a header, and
    `seek()` into a block that is shorter than one. -/
theorem iterators_out_of_bounds :
    (SSTable.open (plainTable [([7], cutEntry)]).file = .ok (plainTable [([7], cutEntry)]) ∧
      beginAt (plainTable [([7], cutEntry)]) (plainTable [([7], cutEntry)]).blockAt =
        .error .outOfBounds) ∧
    SSTable.open (plainTable [([7], cutEntry ++ [7]), ([9], [0])]).file =
      .ok (plainTable [([7], cutEntry ++ [7]), ([9], [0])]) ∧
    seekAt (plainTable [([7], cutEntry ++ [7]), ([9], [0])])
      (plainTable [([7], cutEntry ++ [7]), ([9], [0])]).blockAt [8]
      (plainTable [([7], cutEntry ++ [7]), ([9], [0])]).iterFuel = .error .outOfBounds :=
  ⟨⟨by decide +kernel, by decide +kernel⟩, by decide +kernel, by decide +kernel⟩

end SSTable

end Keystone
