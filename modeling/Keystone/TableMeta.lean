/-
  What the engine believes about its tables.

  `FileMeta.Exact` is everything that level search, overlap picking, range filtering and the
  recovery of the counter trust: the order of the entries, the key range, the count and the
  maximum of the footer, the Bloom filter.

  `tables_exact`: it holds of every file of every version reached by write calls, flushes, rounds
  and reopens, if every part of every table can be read with one `pread`. The writer does not
  look at that: `long_value` is a table that reads back as empty.
-/
import Keystone.AnyLength

namespace Keystone

/-- The `FileMeta` describes a table with the entries `es` exactly. -/
structure FileMeta.Exact (fm : FileMeta) (es : List Entry) : Prop where
  entries : fm.table.entries = .ok es
  ne_nil : es ≠ []
  sorted : SortedLe es
  smallest : fm.smallestKey = headKey es
  largest : fm.largestKey = lastKey es
  count : fm.table.entryCount.toNat = es.length
  maxSeq_ge : ∀ e ∈ es, e.seq ≤ fm.table.maxSeq
  maxSeq_mem : ∃ e ∈ es, e.seq = fm.table.maxSeq
  bloom : ∀ e ∈ es, fm.table.mayContain e.key = true

theorem FileMeta.Ok.exact {fm : FileMeta} (h : fm.Ok) : fm.Exact fm.contents where
  entries := h.entries
  ne_nil := h.ne_nil
  sorted := h.sorted
  smallest := h.smallest
  largest := h.largest
  count := by
    rw [h.table]
    simpa only [← h.table] using entryCount_tableOf h.fits.file
  maxSeq_ge := fun e he => by
    rw [h.table]
    exact le_maxSeqOf he
  maxSeq_mem := by
    rw [h.table]
    exact maxSeqOf_mem h.ne_nil
  bloom := fun e he => by
    rw [h.table]
    exact mayContain_tableOf he

/-! ## Runs -/

/-- The MANIFEST gives back the current version (the order may be another one). -/
def DB.ReadBack (db : DB) : Prop :=
  (Manifest.loadLatest db.dir.manifest).Perm db.version.toManifest

/-- The tables written can be read, and a reopen finds the MANIFEST as written. -/
def DescribeOk (db : DB) : Event → Prop
  | .reopen _ _ => db.ReadBack
  | ev => db.TablesFit ev

instance (db : DB) (ev : Event) : Decidable (DescribeOk db ev) :=
  match ev with
  | .reopen _ _ => inferInstanceAs (Decidable (List.Perm _ _))
  | .assign _ | .apply _ | .flush | .maybeFlush | .getSnapshot | .releaseSnapshot _ | .compactCall
  | .compactWake | .pick _ | .startWriter | .finishWriter | .commit
  | .unlink _ => inferInstanceAs (Decidable (DB.TablesFit db _))

theorem exists_map_of_perm {α β : Type} {f : α → β} {l : List β} {xs : List α}
    (h : l.Perm (xs.map f)) : ∃ ys : List α, ys.Perm xs ∧ l = ys.map f := by
  have hall : List.Forall₂ (fun b a => b = f a) (xs.map f) xs := by
    rw [List.forall₂_map_left_iff]
    exact List.forall₂_same.2 fun _ _ => rfl
  obtain ⟨ys, hl, hp⟩ := List.perm_comp_forall₂ h hall
  refine ⟨ys, hp, ?_⟩
  rw [← List.forall₂_eq_eq_eq, List.forall₂_map_right_iff]
  exact hl

theorem exec_manifest_isSome {dir : Dir} (h : dir.manifest.isSome = true) (op : DiskOp) :
    (dir.exec op).manifest.isSome = true := by
  cases op <;> first | exact h | rfl

theorem execAll_manifest_isSome {dir : Dir} (h : dir.manifest.isSome = true) (ops : List DiskOp) :
    (dir.execAll ops).manifest.isSome = true := by
  induction ops generalizing dir with
  | nil => exact h
  | cons op ops ih => exact ih (exec_manifest_isSome h op)

/-- A running store whose MANIFEST reads back can be opened. -/
theorem DB.Stored.openable {db : DB} (hw : db.Stored) (hm : db.dir.manifest.isSome = true)
    (hback : db.ReadBack) : Openable db.dir db.version := by
  have ht := hw.tables
  have hlive : DB.liveEntries db.dir = Manifest.loadLatest db.dir.manifest := by
    obtain ⟨m, hm⟩ := Option.isSome_iff_exists.1 hm
    simp [DB.liveEntries, hm]
  refine ⟨ht.liveOnDisk, hlive ▸ exists_map_of_perm hback, fun hnone => ?_⟩
  rw [hnone] at hm
  simp at hm

/-- What a run keeps: the tables are sound and there is a MANIFEST. -/
structure DB.Described (db : DB) : Prop where
  stored : db.Stored
  manifest : db.dir.manifest.isSome = true

theorem DB.Described.step {db db' : DB} {ev : Event} (h : db.Described) (hok : DescribeOk db ev)
    (hstep : db.step ev = some db') : db'.Described := by
  refine ⟨?_, by rw [DB.step_dir hstep]; exact execAll_manifest_isSome h.manifest _⟩
  cases ev with
  | reopen opts coins =>
    obtain ⟨-, -, -, -, hopen⟩ := DB.reopen_inv hstep
    exact ((h.stored.openable h.manifest hok).wellFormed hopen).stored
  | _ => exact h.stored.step (by simp) hok hstep

theorem DB.described_create (opts : Options) : (DB.create opts).Described :=
  ⟨(DB.wellFormed_create opts).stored, rfl⟩

/-- **Every `FileMeta` is exact**, in every version of every run whose tables can be read. -/
theorem tables_exact {opts : Options} {evs : List Event} {db : DB}
    (hok : (DB.create opts).Meets DescribeOk evs) (hrun : (DB.create opts).run evs = some db) :
    ∀ fm ∈ db.version.allFiles, ∃ es, fm.Exact es := by
  have h : db.Described := Steps.run_invariant (fun _ _ _ h hP hs => h.step hP hs)
    (DB.described_create opts) hok hrun
  exact fun fm hfm => ⟨fm.contents, (h.stored.okFiles fm hfm).exact⟩

/-- The empty key first in one table and last in none; a merge and a reopen. -/
def metaRun : List Event :=
  [.assign [.put [] [7], .del [1]], .apply [], .flush, .assign [.put [1] [2]], .apply [], .flush,
    .compactCall, .pick plainQueue, .startWriter, .finishWriter, .commit, .compactWake, .unlink 1,
    .unlink 2, .reopen {} []]

theorem tables_exact_merge : ∃ db, (DB.create {}).run metaRun = some db ∧
    db.version.allFiles.length = 1 ∧ ∀ fm ∈ db.version.allFiles, ∃ es, fm.Exact es := by
  have h : (((DB.create {}).run metaRun).map fun db => db.version.allFiles.length) = some 1 := by
    decide +kernel
  obtain ⟨db, hdb, hlen⟩ := Option.map_eq_some_iff.1 h
  exact ⟨db, hdb, hlen, tables_exact (by decide +kernel) hdb⟩

/-! ## A value too long for one read -/

section LongValue

variable {v : Bytes}

/-- A new store with one `put` applied. -/
def putApplied (v : Bytes) : DB :=
  { DB.create {} with
    dir := { wal := some (Wal.appendBatch [] [(Op.put [1] v).record 1]), manifest := some [] }
    memtable := Memtable.fresh.applyAll [(Op.put [1] v).record 1] []
    nextSeq := 2 }

theorem run_put : (DB.create {}).run (writeCall (.put [1] v)) = (putApplied v).maybeFlush :=
  run_writeCall rfl

theorem entries_putApplied : (putApplied v).memtable.entries = [⟨[1], v, false, 1⟩] := by
  show (Memtable.fresh.applyAll [(Op.put [1] v).record 1] []).entries = _
  rw [Memtable.applyAll, Memtable.applyAll, Memtable.entries_applyRecord, Memtable.entries_fresh]
  rfl

theorem approxBytes_putApplied : (putApplied v).memtable.approxBytes = 1 + v.length + 64 := by
  show (Memtable.fresh.applyAll [(Op.put [1] v).record 1] []).approxBytes = _
  rw [approxBytes_applyAll, List.map_singleton, List.map_singleton, nodeBytes_put,
    List.sum_singleton]
  rfl

/-- If it reaches the flush threshold, its table is live. -/
theorem flush_put (hsize : 4194304 ≤ v.length) (hmax : v.length < 2 ^ 32) :
    ∃ db fm, (DB.create {}).run (writeCall (.put [1] v)) = some db ∧ fm ∈ db.version.allFiles ∧
      fm.table = tableOf [⟨[1], v, false, 1⟩] := by
  have hbytes := @approxBytes_putApplied v
  have hfile : (tableFile [⟨[1], v, false, 1⟩]).length ≤ maxFileSize := by
    rw [tableFile_one_length, show maxFileSize = 9223372036854775807 from rfl]
    omega
  have hbuild := (@buildTable_iff 1 0 _ _ _).2 ⟨hfile, opens_one v 1, rfl, rfl⟩
  have hflush := @DB.flush_eq (putApplied v) _ _ (by omega) (show 1 < 2 ^ 31 - 1 by norm_num)
    (entries_putApplied ▸ hbuild)
  have hlimit : (4 * 1024 * 1024 : UInt64).toNat = 4194304 := by decide +kernel
  have hmaybe : (putApplied v).maybeFlush = (putApplied v).flush := by
    refine if_pos ?_
    show (4 * 1024 * 1024 : UInt64).toNat ≤ (putApplied v).memtable.approxBytes
    omega
  exact ⟨_, _, run_put.trans (hmaybe.trans hflush), (allFiles_pushL0 _ _).mem_iff.2
    (List.mem_append_right _ List.mem_cons_self), rfl⟩

end LongValue

/-- A live table that is described wrongly: it reads back as empty. -/
theorem long_value : ∃ db fm,
    (DB.create {}).run (writeCall (.put [1] (List.replicate 2147479531 0))) = some db ∧
    fm ∈ db.version.allFiles ∧ ¬ ∃ es, fm.Exact es := by
  have hlen : (List.replicate 2147479531 (0 : UInt8)).length = 2147479531 := List.length_replicate
  obtain ⟨db, fm, hrun, hfm, htable⟩ := @flush_put (List.replicate 2147479531 0)
    (by rw [hlen]; norm_num) (by rw [hlen]; norm_num)
  refine ⟨db, fm, hrun, hfm, ?_⟩
  rintro ⟨es, hex⟩
  have hread := hex.entries
  rw [htable, entries_one_long _ _ (by rw [hlen]; decide) ?_] at hread
  · exact hex.ne_nil (Except.ok.inj hread).symm
  · rw [tableFile_one_length, hlen, show maxFileSize = 9223372036854775807 from rfl]
    norm_num

end Keystone
