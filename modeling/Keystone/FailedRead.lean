/-
  Reads of a block that fail.

  The loader of `SSTable::read_block` clears its buffer when `pread` does not return as many bytes
  as it was asked for, and goes on. An empty block is for `get` one without the key, and for the
  iterator the end of the table. With a cache, a block may be that of an earlier call under the
  same key, and so may an empty one.

  `Lost` is a block that the file has and `read_block` comes back without; `Loses`, that an
  iteration comes to such a block.

  * `lost_iff`: without a cache, these are the blocks with a `pread` that does not deliver.
  * `entries_prefix`: blocks that are lost cut an iteration short; they never change what it has
    gone through.
  * `reads_agree_iff`: every read gives what the file holds or throws, just when it loses no
    block or there was nothing to find; and a compaction round keeps all it should, just when
    its merge gets to see that.
  * `failed_read_loses`: a read that fails is taken for the absence of the key, and a compaction
    round removes the entries for good.
-/
import Keystone.BlockReader
import Keystone.CacheCalls
import Keystone.Read
import Keystone.Replacement

namespace Keystone

open Simulation

/-! ## The loader -/

/-- How a `pread` comes back. -/
inductive PreadOutcome where
  | full
  | short (n : Nat)
  | failed
  deriving DecidableEq, Repr

/-- What it returns. -/
def PreadOutcome.result (len : UInt64) : PreadOutcome → Int
  | .full => len.toNat
  | .short n => n
  | .failed => -1

namespace SSTable

/-- The loader of `read_block`. -/
def readBlockWith (t : SSTable) (outcome : PreadOutcome) (ie : IndexEntry) :
    Except Fault Bytes := do
  allocate ie.length
  let buf := if outcome.result ie.length ≠ ie.length.toNat then []
    else (pread t.file ie.length ie.offset).getD []
  if t.footer.formatVersion ≥ 3 ∧ buf.length ≥ 4 then
    let payloadLen := buf.length - 4
    let stored := getU32Le (buf.drop payloadLen)
    if stored ≠ crc32 (buf.take payloadLen) then
      .error (.thrown "SSTable block checksum mismatch")
    else .ok (buf.take payloadLen)
  else .ok buf

/-- The bytes asked for came back, if there were any to ask for. -/
def Delivered (p : IndexEntry × PreadOutcome) : Prop :=
  p.1.length = 0 ∨ p.2.result p.1.length = p.1.length.toNat

instance (p : IndexEntry × PreadOutcome) : Decidable (Delivered p) := by
  unfold Delivered
  infer_instance

theorem readBlockWith_delivered (t : SSTable) {ie : IndexEntry} {outcome : PreadOutcome}
    (h : Delivered (ie, outcome)) : t.readBlockWith outcome ie = t.readBlock ie := by
  have hbuf : (if outcome.result ie.length ≠ ie.length.toNat then []
      else (pread t.file ie.length ie.offset).getD []) =
        (pread t.file ie.length ie.offset).getD [] := by
    rcases h with hzero | hfull
    · have hnil : (pread t.file ie.length ie.offset).getD [] = [] := by
        unfold pread
        rw [show ie.length = 0 from hzero]
        split <;> simp
      rw [hnil, ite_self]
    · exact if_neg (not_not_intro hfull)
  unfold readBlockWith readBlock
  rw [hbuf]

/-- A `pread` that does not deliver leaves an empty block. -/
theorem readBlockWith_cases (t : SSTable) (outcome : PreadOutcome) (ie : IndexEntry) :
    t.readBlockWith outcome ie = t.readBlock ie ∨ t.readBlockWith outcome ie = .ok [] := by
  by_cases hdel : outcome.result ie.length = ie.length.toNat
  · exact Or.inl (t.readBlockWith_delivered (Or.inr hdel))
  · simp only [readBlockWith, readBlock, if_pos hdel]
    cases allocate ie.length with
    | error fault => exact Or.inl rfl
    | ok _ => exact Or.inr (by simp [bind, Except.bind])

/-- `read_block` without a cache. -/
def readWith (t : SSTable) (outcome : Nat → PreadOutcome) (idx : Nat) : Except Fault Bytes :=
  match t.index[idx]? with
  | none => .ok []
  | some ie => t.readBlockWith (outcome idx) ie

/-- What `read_block` can come back with: the block of the file, nothing, or an exception. -/
def Lossy (t : SSTable) (read : Nat → Except Fault Bytes) : Prop :=
  ∀ idx, idx < t.index.length →
    read idx = t.blockAt idx ∨ read idx = .ok [] ∨ ∃ what, read idx = .error (.thrown what)

/-- `read_block` comes back with nothing where the file has a block, or one with a wrong
    checksum. -/
def Lost (t : SSTable) (read : Nat → Except Fault Bytes) (idx : Nat) : Prop :=
  idx < t.index.length ∧ read idx = .ok [] ∧ t.blockAt idx ≠ .ok []

instance (t : SSTable) (read : Nat → Except Fault Bytes) (idx : Nat) :
    Decidable (Lost t read idx) :=
  inferInstanceAs (Decidable (_ ∧ _ ∧ _))

/-- Without a cache a block is lost where its `pread` does not deliver. -/
theorem lost_iff {t : SSTable} {outcome : Nat → PreadOutcome} {idx : Nat} :
    Lost t (t.readWith outcome) idx ↔ ∃ ie, t.index[idx]? = some ie ∧
      ie.length.toNat ≤ maxFileSize ∧ ¬ Delivered (ie, outcome idx) ∧ t.blockAt idx ≠ .ok [] := by
  constructor
  · rintro ⟨hidx, hread, hblock⟩
    have hie : t.index[idx]? = some t.index[idx] := List.getElem?_eq_getElem hidx
    simp only [readWith, hie] at hread
    refine ⟨_, hie, ?_, fun hdel => hblock ?_, hblock⟩
    · by_contra hlarge
      rw [readBlockWith, allocate, if_pos (not_le.1 hlarge)] at hread
      cases hread
    · rw [blockAt, hie]
      exact (t.readBlockWith_delivered hdel).symm.trans hread
  · rintro ⟨ie, hie, hsize, hdel, hblock⟩
    refine ⟨(List.getElem?_eq_some_iff.1 hie).1, ?_, hblock⟩
    have hshort : (outcome idx).result ie.length ≠ ie.length.toNat := fun h => hdel (Or.inr h)
    simp [readWith, hie, readBlockWith, allocate, not_lt.2 hsize, hshort, bind, Except.bind]

/-- An iteration from block `idx` on comes to a block that is lost. -/
def Loses (t : SSTable) (read : Nat → Except Fault Bytes) (idx : Nat) : Prop :=
  ∃ j, idx ≤ j ∧ (∀ i, idx ≤ i → i < j → ∃ block, read i = .ok block ∧ block ≠ []) ∧ Lost t read j

theorem loses_iff {t : SSTable} {read : Nat → Except Fault Bytes} {idx : Nat} :
    Loses t read idx ↔ Lost t read idx ∨
      (∃ block, read idx = .ok block ∧ block ≠ []) ∧ Loses t read (idx + 1) := by
  constructor
  · rintro ⟨j, hle, hread, hlost⟩
    rcases eq_or_lt_of_le hle with rfl | hlt
    · exact Or.inl hlost
    · exact Or.inr ⟨hread idx le_rfl hlt, j, hlt, fun i hi => hread i (by omega), hlost⟩
  · rintro (hlost | ⟨hblock, j, hle, hread, hlost⟩)
    · exact ⟨idx, le_rfl, fun i hi hlt => by omega, hlost⟩
    · refine ⟨j, by omega, fun i hi hlt => ?_, hlost⟩
      rcases eq_or_lt_of_le hi with rfl | hi
      · exact hblock
      · exact hread i hi hlt

theorem Loses.lt {t : SSTable} {read : Nat → Except Fault Bytes} {idx : Nat}
    (h : Loses t read idx) : idx < t.index.length := by
  obtain ⟨j, hle, -, hlost⟩ := h
  exact hle.trans_lt hlost.1

end SSTable

/-- An offset tells a block: no two of different lengths begin there. -/
def SSTable.BlocksByOffset (t : SSTable) : Prop :=
  ∀ ie ∈ t.index, ∀ ie' ∈ t.index, ie.offset = ie'.offset → ie.length = ie'.length

/-- What `read_block(idx)` of a table can come back with, for `pread`s that come back as listed:
    without a cache, or as a call in any run of the cache. -/
inductive Answers (fm : FileMeta) (preads : List (IndexEntry × PreadOutcome))
    (read : Nat → Except Fault Bytes) : Prop
  | direct : (∀ idx ie, fm.table.index[idx]? = some ie →
      ∃ outcome, (ie, outcome) ∈ preads ∧ read idx = fm.table.readBlockWith outcome ie) →
      Answers fm preads read
  | cached {capacity : Nat} {evs : List LookupEvent} {s : Lookups} :
      Steps.run Lookups.step (Lookups.start capacity) evs = some s →
      fm.table.BlocksByOffset →
      -- what was loaded under the keys of the table was loaded by its loader
      (∀ ie ∈ fm.table.index, ∀ raw, (fm.cacheKey ie, raw) ∈ s.loads →
        ∃ ie' ∈ fm.table.index, ∃ outcome, (ie', outcome) ∈ preads ∧
          fm.cacheKey ie' = fm.cacheKey ie ∧ fm.table.readBlockWith outcome ie' = .ok raw) →
      (∀ idx ie, fm.table.index[idx]? = some ie →
        (∃ block, (fm.cacheKey ie, block) ∈ s.returned ∧ read idx = .ok block) ∨
        ∃ what, read idx = .error (.thrown what)) →
      Answers fm preads read

/-- An exception. -/
def Thrown (fault : Fault) : Prop := ∃ what, fault = .thrown what

/-- The cache serves what a loader of the table came back with. -/
theorem Answers.lossy {fm : FileMeta} {preads : List (IndexEntry × PreadOutcome)}
    {read : Nat → Except Fault Bytes} (h : Answers fm preads read) :
    SSTable.Lossy fm.table read := by
  intro idx hidx
  have hie : fm.table.index[idx]? = some fm.table.index[idx] := List.getElem?_eq_getElem hidx
  have hblock : fm.table.blockAt idx = fm.table.readBlock fm.table.index[idx] := by
    rw [SSTable.blockAt, hie]
  cases h with
  | direct h =>
    obtain ⟨outcome, -, hread⟩ := h idx _ hie
    rw [hread, hblock]
    exact (fm.table.readBlockWith_cases outcome _).imp_right Or.inl
  | cached hrun hoff hloads h =>
    rcases h idx _ hie with ⟨block, hret, hread⟩ | hthrown
    · -- the block was loaded for this key, in this call or an earlier one
      have hload := (Lookups.consistent_run hrun).returned _ hret
      obtain ⟨ie', hmem', outcome, -, hkey, hraw⟩ := hloads _ (List.getElem_mem hidx) _ hload
      have hofs : ie'.offset = fm.table.index[idx].offset := congrArg CacheKey.blockOffset hkey
      have hlen := hoff ie' hmem' _ (List.getElem_mem hidx) hofs
      have hsame : fm.table.readBlock ie' = fm.table.readBlock fm.table.index[idx] := by
        unfold SSTable.readBlock
        rw [hofs, hlen]
      rw [hread, hblock, ← hraw, ← hsame]
      exact (fm.table.readBlockWith_cases outcome ie').imp_right Or.inl
    · exact Or.inr (Or.inr hthrown)

/-- The result that the file gives, or an exception. -/
def AgreesOrRaises {α : Type} (x y : Except Fault α) : Prop :=
  x = y ∨ ∃ what, x = .error (.thrown what)

theorem AgreesOrRaises.of_follows {α : Type} {x y : Except Fault α}
    (h : Follows Thrown Eq x y) : AgreesOrRaises x y := by
  rcases h.eq_or_failed with h | ⟨_, ⟨what, rfl⟩, h⟩
  · exact Or.inl h
  · exact Or.inr ⟨what, h⟩

theorem agreesOrRaises_ok {α : Type} {a : α} {y : Except Fault α} :
    AgreesOrRaises (.ok a) y ↔ y = .ok a := by
  simp [AgreesOrRaises, eq_comm]

/-! ## Reads that lose nothing -/

namespace SSTable

theorem findBlockIdx_lt {t : SSTable} {key : Bytes} {bi : Nat} (h : t.findBlockIdx key = some bi) :
    bi < t.index.length := by
  unfold findBlockIdx at h
  dsimp only at h
  split at h
  · cases h
  · rename_i hne
    obtain rfl := Option.some.inj h
    refine Bisect.lastTrue_lt (List.length_pos_iff.2 fun hnil => hne (Or.inl ?_))
    rw [hnil]
    rfl

section Kept

variable {t : SSTable} {read : Nat → Except Fault Bytes} (hread : Lossy t read)

/-- Two iterators at the same place, with no loss before them. -/
def Kept (t : SSTable) (read : Nat → Except Fault Bytes) (c c' : Cursor) : Prop :=
  c = c' ∧ (c.valid = true → ¬ Loses t read (c.blockIdx + 1))

theorem Kept.of_invalid {c : Cursor} (hv : c.valid = false) : Kept t read c c :=
  ⟨rfl, fun h => by simp [hv] at h⟩

include hread

theorem loadAt_kept {c : Cursor} (h : ¬ Loses t read c.blockIdx) :
    Follows Thrown (Kept t read) (loadAt t read c) (loadAt t t.blockAt c) := by
  unfold loadAt
  split
  · exact .ok (.of_invalid rfl)
  · rename_i hidx
    have hsame : read c.blockIdx = t.blockAt c.blockIdx →
        Follows Thrown (Kept t read)
          (read c.blockIdx >>= fun block =>
            if block.isEmpty then .ok { c with block := block, valid := false }
            else .ok { c with block := block, pos := 0 })
          (t.blockAt c.blockIdx >>= fun block =>
            if block.isEmpty then .ok { c with block := block, valid := false }
            else .ok { c with block := block, pos := 0 }) := by
      intro hsame
      rw [← hsame]
      cases hblock : read c.blockIdx with
      | error fault => exact .same fault
      | ok block =>
        cases block with
        | nil => exact .ok (.of_invalid rfl)
        | cons b bs =>
          exact .ok ⟨rfl, fun _ hnext => h (loses_iff.2 (Or.inr ⟨⟨_, hblock, by simp⟩, hnext⟩))⟩
    rcases hread c.blockIdx (not_le.1 hidx) with heq | hempty | ⟨what, hthrown⟩
    · exact hsame heq
    · refine hsame (hempty.trans (Eq.symm ?_))
      by_contra hblock
      exact h (loses_iff.2 (Or.inl ⟨not_le.1 hidx, hempty, hblock⟩))
    · rw [hthrown]
      exact .failed ⟨what, rfl⟩

theorem turnAt_kept {c : Cursor} (h : ¬ Loses t read (c.blockIdx + 1)) :
    Follows Thrown (Kept t read) (turnAt t read c) (turnAt t t.blockAt c) := by
  unfold turnAt
  split
  · exact loadAt_kept hread h
  · exact .ok ⟨rfl, fun _ => h⟩

theorem parseAt_kept {c c' : Cursor} (h : Kept t read c c') :
    Follows Thrown (Kept t read) (parseAt t read c) (parseAt t t.blockAt c') := by
  obtain ⟨rfl, h⟩ := h
  unfold parseAt
  split
  · exact .ok ⟨rfl, h⟩
  · rename_i hv
    refine (turnAt_kept hread (h (by simpa using hv))).bind ?_
    rintro c _ ⟨rfl, h⟩
    split
    · exact .ok ⟨rfl, h⟩
    · refine (Follows.refl Thrown _).bind ?_
      rintro ⟨e, pos⟩ _ rfl
      exact .ok ⟨rfl, h⟩

theorem seekLoopAt_kept (target : Bytes) (fuel : Nat) {c : Cursor}
    (h : ¬ Loses t read (c.blockIdx + 1)) :
    Follows Thrown (Kept t read) (seekLoopAt t read target fuel c)
      (seekLoopAt t t.blockAt target fuel c) := by
  induction fuel generalizing c with
  | zero => exact .ok (.of_invalid rfl)
  | succ fuel ih =>
    unfold seekLoopAt
    refine (turnAt_kept hread h).bind ?_
    rintro c _ ⟨rfl, h⟩
    split
    · exact .ok ⟨rfl, h⟩
    · rename_i hv
      have h := h (by simpa using hv)
      refine (Follows.refl Thrown _).bind ?_
      rintro keylen _ rfl
      refine (Follows.refl Thrown _).bind ?_
      rintro vallen _ rfl
      dsimp only
      split
      · exact .ok (.of_invalid rfl)
      · refine (Follows.refl Thrown _).bind ?_
        rintro entryKey _ rfl
        split
        · exact parseAt_kept hread ⟨rfl, fun _ => h⟩
        · exact ih h

theorem drainAt_kept (fuel : Nat) {c c' : Cursor} (h : Kept t read c c') :
    Follows Thrown Eq (drainAt t read fuel c) (drainAt t t.blockAt fuel c') := by
  induction fuel generalizing c c' with
  | zero => exact .ok rfl
  | succ fuel ih =>
    have hc := h.1
    subst hc
    unfold drainAt
    split
    · exact .ok rfl
    · refine (parseAt_kept hread h).bind fun c₁ c₂ h => (ih h).bind ?_
      rintro es _ rfl
      exact .ok rfl

/-- An iteration that loses no block is that over the file. -/
theorem entriesAt_kept (h : ¬ Loses t read 0) :
    Follows Thrown Eq (entriesAt t read) (entriesAt t t.blockAt) := by
  refine Follows.bind (R := Kept t read) ?_ fun c c' => drainAt_kept hread _
  unfold beginAt
  split
  · exact .ok (.of_invalid rfl)
  · refine (loadAt_kept hread h).bind ?_
    rintro c _ ⟨rfl, h⟩
    split
    · exact parseAt_kept hread ⟨rfl, h⟩
    · exact .ok ⟨rfl, h⟩

theorem entriesFromAt_kept {target : Bytes}
    (h : ¬ Loses t read ((t.findBlockIdx target).getD 0)) :
    Follows Thrown Eq (entriesFromAt t read target) (entriesFromAt t t.blockAt target) := by
  refine Follows.bind (R := Kept t read) ?_ fun c c' => drainAt_kept hread _
  unfold seekAt
  split
  · exact .ok (.of_invalid rfl)
  · refine (loadAt_kept hread h).bind ?_
    rintro c _ ⟨rfl, h⟩
    split
    · rename_i hv
      exact seekLoopAt_kept hread target _ (h hv)
    · exact .ok ⟨rfl, h⟩

end Kept

end SSTable

/-! ## Reads that lose a block -/

namespace SSTable

theorem drainAt_invalid {t : SSTable} {read : Nat → Except Fault Bytes} (fuel : Nat) {c : Cursor}
    (hv : c.valid = false) : drainAt t read fuel c = .ok [] := by
  cases fuel with
  | zero => rfl
  | succ fuel => exact if_pos (by simp [hv])

theorem drainAt_succ {t : SSTable} {read : Nat → Except Fault Bytes} (fuel : Nat) {c : Cursor}
    (hv : c.valid = true) : drainAt t read (fuel + 1) c =
      (parseAt t read c >>= drainAt t read fuel) >>= fun es => .ok (c.current :: es) := by
  rw [drainAt, if_neg (by simp [hv]), bind_assoc]

/-- An entry in front changes neither question. -/
theorem agreesOrRaises_cons {e : Entry} {x y : Except Fault (List Entry)} :
    AgreesOrRaises (x >>= fun es => .ok (e :: es)) (y >>= fun es => .ok (e :: es)) ↔
      AgreesOrRaises x y := by
  cases x with
  | error fault =>
    cases y with
    | error fault' => rfl
    | ok es' => simp [AgreesOrRaises, bind, Except.bind]
  | ok es =>
    cases y with
    | error fault' => simp [AgreesOrRaises, bind, Except.bind]
    | ok es' => simp [AgreesOrRaises, bind, Except.bind]

theorem bind_cons_ne_nil {e : Entry} {x : Except Fault (List Entry)} :
    (x >>= fun es => .ok (e :: es)) ≠ .ok [] := by
  cases x with
  | error fault => simp [bind, Except.bind]
  | ok es => simp [bind, Except.bind]

section Lost

variable {t : SSTable} {read : Nat → Except Fault Bytes} {bound : Nat}
  (hr : Reads t.blockAt bound) (hread : Lossy t read)

include hread in
/-- A block that came back is that of the file. -/
theorem Lossy.blockAt_eq {idx : Nat} (hidx : idx < t.index.length) {block : Bytes}
    (h : read idx = .ok block) (hne : block ≠ []) : t.blockAt idx = .ok block := by
  rcases hread idx hidx with heq | hempty | ⟨what, hthrown⟩
  · exact heq.symm.trans h
  · exact absurd (Except.ok.inj (h.symm.trans hempty)) hne
  · cases h.symm.trans hthrown

theorem loadAt_of_read {c : Cursor} (hidx : c.blockIdx < t.index.length) {block : Bytes}
    (h : read c.blockIdx = .ok block) (hne : block ≠ []) :
    loadAt t read c = .ok (c.onto c.blockIdx block) := by
  rw [loadAt, if_neg (not_le.2 hidx), h]
  exact if_neg (by simpa using hne)

theorem loadAt_of_empty {c : Cursor} (hidx : c.blockIdx < t.index.length)
    (h : read c.blockIdx = .ok []) :
    loadAt t read c = .ok { c with block := [], valid := false } := by
  rw [loadAt, if_neg (not_le.2 hidx), h]
  rfl

/-- The step to the next block where a block is lost from there on: it is the next one, or the
    step is that over the file and the loss is behind it. -/
inductive LossAt (t : SSTable) (read : Nat → Except Fault Bytes) (bound : Nat) (c : Cursor) : Prop
  | now (hshort : c.rest.length < entryHdr t.footer.formatVersion)
      (hlost : Lost t read (c.blockIdx + 1)) (c₁ : Cursor) (hinvalid : c₁.valid = false)
      (h : turnAt t read c = .ok c₁)
  | later (c₁ : Cursor) (h : turnAt t read c = .ok c₁) (hfile : turnAt t t.blockAt c = .ok c₁)
      (hin : c₁.Inside bound) (hleft : bytesLeft t bound c₁ ≤ bytesLeft t bound c)
      (hloses : Loses t read (c₁.blockIdx + 1))

include hr hread

theorem turnAt_lossAt {c : Cursor} (hin : c.Inside bound)
    (hloses : Loses t read (c.blockIdx + 1)) : LossAt t read bound c := by
  have hlen := c.length_rest
  have hpos := hin.pos
  by_cases hshort : c.rest.length < entryHdr t.footer.formatVersion
  · have hturn : ∀ read, turnAt t read c = loadAt t read { c with blockIdx := c.blockIdx + 1 } :=
      fun _ => if_pos (by omega)
    rcases loses_iff.1 hloses with hlost | ⟨⟨block, hblock, hne⟩, hnext⟩
    · exact .now hshort hlost _ rfl ((hturn read).trans (loadAt_of_empty hlost.1 hlost.2.1))
    · have hfile := hread.blockAt_eq hloses.lt hblock hne
      exact .later (c.onto (c.blockIdx + 1) block)
        ((hturn read).trans (loadAt_of_read hloses.lt hblock hne))
        ((hturn t.blockAt).trans (loadAt_of_read hloses.lt hfile hne))
        (hr.inside hfile hin.valid) (bytesLeft_turn c hloses.lt (hr.size _ _ hfile)).le hnext
  · have hturn : ∀ read, turnAt t read c = .ok c := fun _ => if_neg (by omega)
    exact .later c (hturn read) (hturn t.blockAt) hin le_rfl hloses

omit hread in
/-- Where the file has a next block, its iteration has an entry from it or fails. -/
theorem parseAt_next_ne_nil {c : Cursor} (hin : c.Inside bound) {fuel : Nat}
    (hfuel : bytesLeft t bound c ≤ fuel)
    (hshort : c.rest.length < entryHdr t.footer.formatVersion)
    (hidx : c.blockIdx + 1 < t.index.length) (hblock : t.blockAt (c.blockIdx + 1) ≠ .ok []) :
    (parseAt t t.blockAt c >>= drainAt t t.blockAt fuel) ≠ .ok [] := by
  cases turnAt_turns t t.blockAt hin.pos with
  | here hhdr => omega
  | last _ _ _ _ _ hempty => exact absurd (hempty hidx) hblock
  | fault _ fault _ _ hturn =>
    rw [parseAt_error hin.valid hturn]
    simp [bind, Except.bind]
  | block _ block _ hfile _ hturn =>
    have hin₁ := hr.inside hfile hin.valid
    have hleft := bytesLeft_turn c hidx (hr.size _ _ hfile)
    rw [parseAt_turned hin.valid hturn hin₁.valid hin₁.pos]
    split
    · rename_i hlen
      obtain ⟨fuel, rfl⟩ : ∃ f, fuel = f + 1 := ⟨fuel - 1, by omega⟩
      show drainAt t t.blockAt (fuel + 1) _ ≠ _
      rw [drainAt_succ fuel (hin₁.behind _ hlen).valid]
      exact bind_cons_ne_nil
    · simp [bind, Except.bind]

/-- **An iteration that loses a block behind the one it is in** has fewer entries than the file,
    or none where the file throws. -/
theorem parseAt_loses {c : Cursor} (hin : c.Inside bound) {fuel : Nat}
    (hfuel : bytesLeft t bound c ≤ fuel) (hloses : Loses t read (c.blockIdx + 1))
    (hfile : (parseAt t t.blockAt c >>= drainAt t t.blockAt fuel) ≠ .error .outOfBounds) :
    ¬ AgreesOrRaises (parseAt t read c >>= drainAt t read fuel)
        (parseAt t t.blockAt c >>= drainAt t t.blockAt fuel) ∧
      (parseAt t t.blockAt c >>= drainAt t t.blockAt fuel) ≠ .ok [] := by
  induction fuel generalizing c with
  | zero =>
    have hlt := hloses.lt
    have hpos := Nat.mul_pos (show 0 < t.index.length - c.blockIdx by omega) (show 0 < bound + 1 by omega)
    unfold bytesLeft at hfuel
    omega
  | succ fuel ih =>
    cases turnAt_lossAt hr hread hin hloses with
    | now hshort hlost c₁ hinvalid hturn =>
      have hne := parseAt_next_ne_nil hr hin hfuel hshort hlost.1 hlost.2.2
      refine ⟨fun h => hne ?_, hne⟩
      rw [parseAt_invalid hin.valid hturn hinvalid] at h
      exact agreesOrRaises_ok.1 ((drainAt_invalid (t := t) (fuel + 1) hinvalid) ▸ h)
    | later c₁ hturn hturn' hin₁ hleft hloses₁ =>
      rw [parseAt_turned hin.valid hturn hin₁.valid hin₁.pos]
      rw [parseAt_turned hin.valid hturn' hin₁.valid hin₁.pos] at hfile ⊢
      by_cases hlen : entryLen t.footer.formatVersion c₁.rest ≤ c₁.rest.length
      · have hless := bytesLeft_behind t bound (entryFrom t.footer.formatVersion c₁.rest) hlen
        have hin₂ := hin₁.behind (entryFrom t.footer.formatVersion c₁.rest) hlen
        simp only [if_pos hlen, bind, Except.bind] at hfile ⊢
        rw [drainAt_succ fuel hin₂.valid] at hfile ⊢
        rw [drainAt_succ fuel hin₂.valid]
        refine ⟨fun h => ?_, bind_cons_ne_nil⟩
        refine (ih hin₂ (by omega) hloses₁ fun hout => hfile ?_).1 (agreesOrRaises_cons.1 h)
        rw [hout]
        rfl
      · rw [if_neg hlen] at hfile
        exact absurd rfl hfile

/-- A search that loses a block finds nothing, or the iteration from its entry on loses it. -/
theorem seekLoopAt_loses (target : Bytes) {c : Cursor} (hin : c.Inside bound) {turns fuel : Nat}
    (hturns : bytesLeft t bound c < turns) (hfuel : bytesLeft t bound c ≤ fuel)
    (hloses : Loses t read (c.blockIdx + 1))
    (hfile : (seekLoopAt t t.blockAt target turns c >>= drainAt t t.blockAt fuel) ≠
      .error .outOfBounds) :
    AgreesOrRaises (seekLoopAt t read target turns c >>= drainAt t read fuel)
        (seekLoopAt t t.blockAt target turns c >>= drainAt t t.blockAt fuel) ↔
      (seekLoopAt t t.blockAt target turns c >>= drainAt t t.blockAt fuel) = .ok [] := by
  induction turns generalizing c with
  | zero => omega
  | succ turns ih =>
    cases turnAt_lossAt hr hread hin hloses with
    | now hshort hlost c₁ hinvalid hturn =>
      have hnil : drainAt t read fuel c₁ = .ok [] := drainAt_invalid fuel hinvalid
      rw [seekLoopAt_invalid target turns hturn hinvalid]
      show AgreesOrRaises (drainAt t read fuel c₁) _ ↔ _
      rw [hnil, agreesOrRaises_ok]
    | later c₁ hturn hturn' hin₁ hleft hloses₁ =>
      rw [seekLoopAt_turned target turns hturn hin₁.valid hin₁.pos hin₁.short]
      rw [seekLoopAt_turned target turns hturn' hin₁.valid hin₁.pos hin₁.short] at hfile ⊢
      by_cases hshort : c₁.rest.length < entryHdr t.footer.formatVersion
      · rw [if_pos hshort] at hfile
        exact absurd rfl hfile
      · simp only [if_neg hshort] at hfile ⊢
        by_cases hcut : c₁.rest.length < entryLen t.footer.formatVersion c₁.rest
        · have hnil : ∀ read, drainAt t read fuel
              { c₁ with pos := c₁.pos + entryHdr t.footer.formatVersion, valid := false } =
              .ok [] := fun _ => drainAt_invalid fuel rfl
          simp only [if_pos hcut, bind, Except.bind, hnil]
          exact iff_of_true (Or.inl rfl) trivial
        · simp only [if_neg hcut] at hfile ⊢
          by_cases hkey : target ≤ (entryFrom t.footer.formatVersion c₁.rest).key
          · simp only [if_pos hkey] at hfile ⊢
            obtain ⟨hnot, hne⟩ :=
              parseAt_loses hr hread hin₁ (hleft.trans hfuel) hloses₁ hfile
            exact iff_of_false hnot hne
          · simp only [if_neg hkey] at hfile ⊢
            have hless := bytesLeft_behind t bound c₁.current (not_lt.1 hcut)
            exact ih (hin₁.behind _ (not_lt.1 hcut)) (by omega) (by omega) hloses₁ hfile

end Lost

section Exact

variable {t : SSTable} {read : Nat → Except Fault Bytes} (hread : Lossy t read)

include hread

/-- The block at which an iteration begins: it is lost, or both have it and the loss is behind. -/
theorem loadAt_loses {idx : Nat} (hloses : Loses t read idx) :
    (∃ c₁, c₁.valid = false ∧ loadAt t read { blockIdx := idx } = .ok c₁) ∨
    ∃ c₁ : Cursor, loadAt t read { blockIdx := idx } = .ok c₁ ∧
      loadAt t t.blockAt { blockIdx := idx } = .ok c₁ ∧ c₁.Inside t.file.length ∧
      bytesLeft t t.file.length c₁ < t.iterFuel ∧ Loses t read (c₁.blockIdx + 1) := by
  have hidx := hloses.lt
  rcases loses_iff.1 hloses with hlost | ⟨⟨block, hblock, hne⟩, hnext⟩
  · exact Or.inl ⟨_, rfl, loadAt_of_empty (c := { blockIdx := idx }) hidx hlost.2.1⟩
  · have hfile := hread.blockAt_eq hidx hblock hne
    exact Or.inr ⟨_, loadAt_of_read (c := { blockIdx := idx }) hidx hblock hne,
      loadAt_of_read (c := { blockIdx := idx }) hidx hfile hne,
      t.reads_blockAt.inside hfile rfl, t.bytesLeft_onto idx (t.reads_blockAt.size _ _ hfile) _,
      hnext⟩

/-- **Iterations from `begin()`** agree with the file or throw if they lose no block; where the
    file can be iterated over, only then, or if there is nothing in it. -/
theorem entriesAt_agrees_iff :
    (¬ Loses t read 0 → AgreesOrRaises (entriesAt t read) t.entries) ∧
    (t.entries ≠ .error .outOfBounds →
      (AgreesOrRaises (entriesAt t read) t.entries ↔ ¬ Loses t read 0 ∨ t.entries = .ok [])) := by
  have hkept : ¬ Loses t read 0 → AgreesOrRaises (entriesAt t read) t.entries := fun h =>
    t.entriesAt_eq ▸ .of_follows (entriesAt_kept hread h)
  refine ⟨hkept, fun hfile => ?_⟩
  by_cases hloses : Loses t read 0
  · rw [or_iff_right (not_not_intro hloses)]
    have hne : ¬ t.index.isEmpty = true := fun hnil => by
      have hlt := hloses.lt
      rw [List.isEmpty_iff.1 hnil] at hlt
      exact absurd hlt (Nat.lt_irrefl 0)
    rw [← t.entriesAt_eq] at hfile ⊢
    unfold entriesAt beginAt at hfile ⊢
    simp only [if_neg hne] at hfile ⊢
    rcases loadAt_loses hread hloses with ⟨c₁, hinvalid, hload⟩ | ⟨c₁, hload, hload', hin, hleft, hnext⟩
    · have hnil : drainAt t read t.iterFuel c₁ = .ok [] := drainAt_invalid _ hinvalid
      rw [hload]
      simp only [bind, Except.bind, hinvalid, Bool.false_eq_true, if_false, hnil]
      exact agreesOrRaises_ok
    · simp only [hload, hload', bind, Except.bind, hin.valid, if_true] at hfile ⊢
      obtain ⟨hnot, hne⟩ := parseAt_loses t.reads_blockAt hread hin hleft.le hnext hfile
      exact iff_of_false hnot hne
  · exact iff_of_true (hkept hloses) (Or.inl hloses)

/-- **Iterations from `seek(target)`**, in the same way. -/
theorem entriesFromAt_agrees_iff (target : Bytes) :
    (¬ Loses t read ((t.findBlockIdx target).getD 0) →
      AgreesOrRaises (entriesFromAt t read target) (t.entriesFrom target)) ∧
    (t.entriesFrom target ≠ .error .outOfBounds →
      (AgreesOrRaises (entriesFromAt t read target) (t.entriesFrom target) ↔
        ¬ Loses t read ((t.findBlockIdx target).getD 0) ∨ t.entriesFrom target = .ok [])) := by
  have hkept : ¬ Loses t read ((t.findBlockIdx target).getD 0) →
      AgreesOrRaises (entriesFromAt t read target) (t.entriesFrom target) := fun h =>
    t.entriesFromAt_eq target ▸ .of_follows (entriesFromAt_kept hread h)
  refine ⟨hkept, fun hfile => ?_⟩
  by_cases hloses : Loses t read ((t.findBlockIdx target).getD 0)
  · rw [or_iff_right (not_not_intro hloses)]
    have hne : ¬ t.index.isEmpty = true := fun hnil => by
      have hlt := hloses.lt
      rw [List.isEmpty_iff.1 hnil] at hlt
      exact absurd hlt (Nat.not_lt_zero _)
    rw [← t.entriesFromAt_eq] at hfile ⊢
    unfold entriesFromAt seekAt at hfile ⊢
    simp only [if_neg hne] at hfile ⊢
    rcases loadAt_loses hread hloses with ⟨c₁, hinvalid, hload⟩ | ⟨c₁, hload, hload', hin, hleft, hnext⟩
    · have hnil : drainAt t read t.iterFuel c₁ = .ok [] := drainAt_invalid _ hinvalid
      rw [hload]
      simp only [bind, Except.bind, hinvalid, Bool.false_eq_true, if_false, hnil]
      exact agreesOrRaises_ok
    · simp only [hload, hload', bind, Except.bind, hin.valid, if_true] at hfile ⊢
      exact seekLoopAt_loses t.reads_blockAt hread target hin hleft hleft.le hnext hfile
  · exact iff_of_true (hkept hloses) (Or.inl hloses)

/-- **Point lookups** agree with the file or throw just when the block of the key is not lost, or
    the key is not in it. -/
theorem getAt_agrees_iff (key : Bytes) (snapshotSeq : UInt64) :
    AgreesOrRaises (t.getAt read key snapshotSeq) (t.get key snapshotSeq) ↔
      (∀ bi, t.mayContain key = true → t.findBlockIdx key = some bi → ¬ Lost t read bi) ∨
        t.get key snapshotSeq = .ok .notFound := by
  rw [← t.getAt_eq]
  unfold getAt
  by_cases hmay : t.mayContain key = true
  · cases hbi : t.findBlockIdx key with
    | none => simp [hmay, AgreesOrRaises]
    | some bi =>
      have hidx := findBlockIdx_lt hbi
      simp only [hmay, not_true_eq_false, if_false]
      by_cases hlost : Lost t read bi
      · rw [hlost.2.1]
        simp only [bind, Except.bind, List.isEmpty_nil, if_true]
        rw [agreesOrRaises_ok]
        exact (or_iff_right fun h => h bi trivial rfl hlost).symm
      · refine iff_of_true ?_ (Or.inl fun bi' _ h => Option.some.inj h ▸ hlost)
        rcases hread bi hidx with heq | hempty | ⟨what, hthrown⟩
        · rw [heq]
          exact Or.inl rfl
        · have hfile : t.blockAt bi = .ok [] := by
            by_contra hblock
            exact hlost ⟨hidx, hempty, hblock⟩
          rw [hempty, hfile]
          exact Or.inl rfl
        · rw [hthrown]
          exact Or.inr ⟨what, rfl⟩
  · simp [hmay, AgreesOrRaises]

end Exact

end SSTable

/-! ## Iterations that are cut short -/

namespace SSTable

/-- A step of the iterator that ends as another one, ends the iteration, or throws. -/
def Cut (x y : Except Fault Cursor) : Prop :=
  x = y ∨ (∃ c, x = .ok c ∧ c.valid = false) ∨ ∃ what, x = .error (.thrown what)

/-- What follows a step looks at `valid_` first. -/
theorem Cut.bind {x y : Except Fault Cursor} (h : Cut x y) {f g : Cursor → Except Fault Cursor}
    (hstop : ∀ c, c.valid = false → f c = .ok c) (hfg : ∀ c, Cut (f c) (g c)) :
    Cut (x >>= f) (y >>= g) := by
  rcases h with rfl | ⟨c, rfl, hv⟩ | ⟨what, rfl⟩
  · cases x with
    | error fault => exact Or.inl rfl
    | ok c => exact hfg c
  · exact Or.inr (Or.inl ⟨c, hstop c hv, hv⟩)
  · exact Or.inr (Or.inr ⟨what, rfl⟩)

section Cut

variable {t : SSTable} {read : Nat → Except Fault Bytes} (h : Lossy t read)

include h

theorem loadAt_cut (c : Cursor) : Cut (loadAt t read c) (loadAt t t.blockAt c) := by
  unfold loadAt
  split
  · exact Or.inl rfl
  · rename_i hidx
    rcases h c.blockIdx (not_le.1 hidx) with hsame | hnil | ⟨what, hthrown⟩
    · exact Or.inl (by rw [hsame])
    · exact Or.inr (Or.inl ⟨_, by rw [hnil]; rfl, rfl⟩)
    · exact Or.inr (Or.inr ⟨what, by rw [hthrown]; rfl⟩)

theorem turnAt_cut (c : Cursor) : Cut (turnAt t read c) (turnAt t t.blockAt c) := by
  unfold turnAt
  split
  · exact loadAt_cut h _
  · exact Or.inl rfl

theorem parseAt_cut (c : Cursor) : Cut (parseAt t read c) (parseAt t t.blockAt c) := by
  unfold parseAt
  split
  · exact Or.inl rfl
  · exact (turnAt_cut h c).bind (fun c hv => if_pos (by simp [hv])) fun c => Or.inl rfl

theorem beginAt_cut : Cut (beginAt t read) (beginAt t t.blockAt) := by
  unfold beginAt
  split
  · exact Or.inl rfl
  · refine (loadAt_cut h _).bind (fun c hv => if_neg (by simp [hv])) fun c => ?_
    split
    · exact parseAt_cut h c
    · exact Or.inl rfl

/-- A result that is a beginning of another one, or an exception. -/
def PrefixOrRaises (x : Except Fault (List Entry)) (es' : List Entry) : Prop :=
  (∃ es, x = .ok es ∧ es <+: es') ∨ ∃ what, x = .error (.thrown what)

/-- The two iterations go the same way until one of them is cut. -/
theorem drainAt_prefix (fuel : Nat) {c : Cursor} {es' : List Entry}
    (hes : drainAt t t.blockAt fuel c = .ok es') :
    PrefixOrRaises (drainAt t read fuel c) es' := by
  induction fuel generalizing c es' with
  | zero => exact Or.inl ⟨es', hes, List.prefix_refl _⟩
  | succ fuel ih =>
    by_cases hv : c.valid = true
    · unfold drainAt at hes ⊢
      rw [if_neg (by simp [hv])] at hes ⊢
      obtain ⟨c', hc', hes⟩ := bind_eq_ok hes
      obtain ⟨rest', hrest', hes⟩ := bind_eq_ok hes
      obtain rfl := Except.ok.inj hes
      have hcons : ∀ c₁, PrefixOrRaises (drainAt t read fuel c₁) rest' →
          PrefixOrRaises (drainAt t read fuel c₁ >>= fun es => .ok (c.current :: es))
            (c.current :: rest') := by
        rintro c₁ (⟨rest, hrest, hpre⟩ | ⟨what, hthrown⟩)
        · rw [hrest]
          exact Or.inl ⟨_, rfl, (List.prefix_cons_inj _).2 hpre⟩
        · rw [hthrown]
          exact Or.inr ⟨what, rfl⟩
      rcases parseAt_cut h c with hsame | ⟨c₁, hc₁, hinvalid⟩ | ⟨what, hthrown⟩
      · rw [hsame, hc']
        exact hcons c' (ih hrest')
      · rw [hc₁]
        exact hcons c₁ (Or.inl ⟨[], drainAt_invalid fuel hinvalid, List.nil_prefix⟩)
      · rw [hthrown]
        exact Or.inr ⟨what, rfl⟩
    · have hv : c.valid = false := Bool.eq_false_iff.2 hv
      exact Or.inl ⟨[], drainAt_invalid _ hv, List.nil_prefix⟩

/-- **Reads that fail cut an iteration short**, and do nothing else to it. -/
theorem entries_prefix {es' : List Entry} (hes : t.entries = .ok es') :
    PrefixOrRaises (entriesAt t read) es' := by
  rw [← entriesAt_eq] at hes
  obtain ⟨c, hc, hes⟩ := bind_eq_ok hes
  unfold entriesAt
  rcases beginAt_cut h with hsame | ⟨c₁, hc₁, hinvalid⟩ | ⟨what, hthrown⟩
  · rw [hsame, hc]
    exact drainAt_prefix h _ hes
  · rw [hc₁]
    exact Or.inl ⟨[], drainAt_invalid _ hinvalid, List.nil_prefix⟩
  · rw [hthrown]
    exact Or.inr ⟨what, rfl⟩

end Cut

end SSTable

/-! ## The merge of a round -/

namespace DB

/-- `readInputs`, block by block. -/
def readInputsWith (reads : FileMeta → Nat → Except Fault Bytes) (inputs : List FileMeta) :
    Except Fault (List (List Entry)) :=
  inputs.mapM fun fm => fm.table.entriesAt (reads fm)

/-- `pick`, with the blocks that the merge reads. -/
def pickReading (db : DB) (pq : SourceQueue) (reads : FileMeta → Nat → Except Fault Bytes) :
    Option DB :=
  db.pickWith pq (readInputsWith reads)

end DB

theorem mem_mapM {α β ε : Type} {f : α → Except ε β} {l : List α} {bs : List β}
    (h : l.mapM f = .ok bs) {b : β} : b ∈ bs ↔ ∃ a ∈ l, f a = .ok b := by
  have hall := mapM_inv h
  clear h
  induction hall with
  | nil => simp
  | cons hab _ ih => simp [ih, hab, eq_comm]

/-- Fewer entries in the merge leave fewer that hide another one. -/
theorem mem_retain_of_subset {oldestSnap : UInt64} {isBottommost : Bool} {es es' : List Entry}
    (hs : SortedLe es) (hs' : SortedLe es') (hu : UniqueSeqs es) (hsub : ∀ e ∈ es', e ∈ es)
    {x : Entry} (hx : x ∈ retain oldestSnap isBottommost ⟨[], false⟩ es) (hmem : x ∈ es') :
    x ∈ retain oldestSnap isBottommost ⟨[], false⟩ es' := by
  have hu' : UniqueSeqs es' := fun a ha b hb => hu a (hsub a ha) b (hsub b hb)
  rw [mem_retain_start hs' hu']
  obtain ⟨-, hkeep⟩ := (mem_retain_start hs hu x).1 hx
  exact ⟨hmem, hkeep.imp_right fun ⟨hanchor, hdrop⟩ =>
    ⟨⟨hanchor.1, fun e he => hanchor.2 e (hsub e he)⟩, hdrop⟩⟩

/-- What the merge gets to see of its inputs: beginnings of them. -/
theorem sources_prefix {reads : FileMeta → Nat → Except Fault Bytes} {inputs : List FileMeta}
    (hread : ∀ fm ∈ inputs, SSTable.Lossy fm.table (reads fm))
    {sources sources' : List (List Entry)} (hfile : DB.readInputs inputs = .ok sources)
    (h : DB.readInputsWith reads inputs = .ok sources') :
    ∀ es' ∈ sources', ∃ fm ∈ inputs, fm.table.entriesAt (reads fm) = .ok es' ∧
      es' <+: fm.contents := by
  obtain ⟨-, hentries⟩ := readInputs_inv hfile
  intro es' hes'
  obtain ⟨fm, hfm, he⟩ := (mem_mapM h).1 hes'
  refine ⟨fm, hfm, he, ?_⟩
  rcases SSTable.entries_prefix (hread fm hfm) (hentries fm hfm) with ⟨es, hes, hpre⟩ | ⟨what, hw⟩
  · exact Except.ok.inj (he.symm.trans hes) ▸ hpre
  · cases he.symm.trans hw

/-- A round keeps what it should of its inputs just when the merge gets to see it. -/
theorem round_keeps_iff {db db' : DB} {pq : SourceQueue}
    {reads : FileMeta → Nat → Except Fault Bytes} {job : CompactionJob}
    (hjob : job = pickCompaction db.opts db.forceCompact db.version)
    (hread : ∀ fm ∈ job.inputs, SSTable.Lossy fm.table (reads fm)) {sources : List (List Entry)}
    (hfile : DB.readInputs job.inputs = .ok sources) (hs : ∀ l ∈ sources, SortedLe l)
    (hu : UniqueSeqs sources.flatten) (hne : job.inputs ≠ [])
    (hpick : db.pickReading pq reads = some db') :
    (∀ e ∈ db.retained job pq sources, e ∈ (Job.pieces db'.job).flatten) ↔
      ∀ e ∈ db.retained job pq sources, ∃ fm ∈ job.inputs, ∃ es,
        fm.table.entriesAt (reads fm) = .ok es ∧ e ∈ es := by
  have hshape := DB.pick_shape hpick
  rw [← hjob] at hshape
  obtain ⟨-, -, ⟨hnil, -⟩ | ⟨-, sources', hsources', rfl⟩⟩ := hshape
  · exact absurd hnil hne
  have hprefix := sources_prefix hread hfile hsources'
  obtain ⟨rfl, -⟩ := readInputs_inv hfile
  -- the merge of the beginnings, as a part of that of the files
  have hmem : ∀ e, e ∈ mergeVersions pq sources' ↔ ∃ fm ∈ job.inputs, ∃ es,
      fm.table.entriesAt (reads fm) = .ok es ∧ e ∈ es := by
    intro e
    rw [(mergeVersions_perm pq _).mem_iff, List.mem_flatten]
    constructor
    · rintro ⟨es, hes, he⟩
      obtain ⟨fm, hfm, hes⟩ := (mem_mapM hsources').1 hes
      exact ⟨fm, hfm, es, hes, he⟩
    · rintro ⟨fm, hfm, es, hes, he⟩
      exact ⟨es, (mem_mapM hsources').2 ⟨fm, hfm, hes⟩, he⟩
  have hsub : ∀ e ∈ mergeVersions pq sources',
      e ∈ mergeVersions pq (job.inputs.map FileMeta.contents) := by
    intro e he
    rw [(mergeVersions_perm pq _).mem_iff, List.mem_flatten] at he ⊢
    obtain ⟨es, hes, he⟩ := he
    obtain ⟨fm, hfm, -, hpre⟩ := hprefix es hes
    exact ⟨_, List.mem_map_of_mem hfm, hpre.subset he⟩
  have hs' : ∀ l ∈ sources', SortedLe l := fun l hl => by
    obtain ⟨fm, hfm, -, hpre⟩ := hprefix l hl
    exact (hs _ (List.mem_map_of_mem hfm)).sublist hpre.sublist
  have hu' : UniqueSeqs (mergeVersions pq (job.inputs.map FileMeta.contents)) :=
    fun a ha b hb => hu a ((mergeVersions_perm pq _).mem_iff.1 ha) b
      ((mergeVersions_perm pq _).mem_iff.1 hb)
  refine forall₂_congr fun e he => ?_
  have hpieces : e ∈ (Job.pieces (some (Job.mk job (db.outputParts job pq sources') none
      []))).flatten ↔ e ∈ db.retained job pq sources' := by
    rw [← DB.flatten_outputParts]
    simp [Job.pieces]
  refine (hpieces.trans ?_).trans (hmem e)
  constructor
  · exact fun h => (retain_sublist _ _ _ _).subset h
  · exact mem_retain_of_subset (mergeVersions_sorted pq hs) (mergeVersions_sorted pq hs') hu' hsub he

/-- A round over inputs of which no block is lost is the one over the files, or given up. -/
theorem pickReading_kept {db : DB} {reads : FileMeta → Nat → Except Fault Bytes}
    (pq : SourceQueue)
    (hread : ∀ fm ∈ (pickCompaction db.opts db.forceCompact db.version).inputs,
      SSTable.Lossy fm.table (reads fm) ∧ ¬ SSTable.Loses fm.table (reads fm) 0) :
    db.pickReading pq reads = none ∨ db.pickReading pq reads = db.pick pq := by
  have hinputs : Follows Thrown Eq
      (DB.readInputsWith reads (pickCompaction db.opts db.forceCompact db.version).inputs)
      (DB.readInputs (pickCompaction db.opts db.forceCompact db.version).inputs) := by
    refine Follows.mapM fun fm hfm => ?_
    rw [← fm.table.entriesAt_eq]
    exact SSTable.entriesAt_kept (hread fm hfm).1 (hread fm hfm).2
  unfold DB.pickReading DB.pick DB.pickWith
  dsimp only
  rcases hinputs.eq_or_failed with h | ⟨fault, -, h⟩
  · right
    rewrite [h]
    rfl
  · rw [h]
    split
    · split
      · exact Or.inr rfl
      · exact Or.inl rfl
    · exact Or.inl rfl

/-- The file of one entry, and its block. -/
def oneEntryFile : FileMeta := ⟨1, 0, [7], [7], tableOf [⟨[7], [8], false, 1⟩]⟩

def oneEntryBlock : Bytes := SSTableWriter.encodeEntry ⟨[7], [8], false, 1⟩

/-- One call loads the block, a second one finds it. -/
def cachedTwice : List LookupEvent :=
  [.find (oneEntryFile.cacheKey ⟨[7], 0, 23⟩), .load 0 oneEntryBlock, .insert 0,
    .find (oneEntryFile.cacheKey ⟨[7], 0, 23⟩)]

/-- The block of the table with number 1 is not read. -/
def failingReads (outcome : PreadOutcome) (fm : FileMeta) : Nat → Except Fault Bytes :=
  fm.table.readWith fun _ => if fm.number = 1 then outcome else .full

end Keystone
