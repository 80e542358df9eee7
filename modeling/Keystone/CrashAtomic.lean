/-
  Crash atomicity.

  `Dir.Holds dir ver es`: the directory can be opened, on the files of `ver`, and the store then
  holds exactly the entries `es`.

  * `Recoverable.crashOpen`: an open that is interrupted, as often as it likes, loses nothing.
  * `DB.Durable.crashIn`: a step that is interrupted leaves a directory that holds what was there
    before the step or what is there after it; `DB.Durable.crashIn_apply`: in the append of a
    batch, what was there and some first records of the batch.
  * `crash_atomic`: after any run of calls, engine steps, reopens and crashes, the next crash is
    followed by an open that succeeds and finds one of these sets.
-/
import Keystone.Crash
import Keystone.Sequence

namespace Keystone

/-! ## Interrupted opens -/

/-- What `DB::open` may do to a directory with these records and these files. -/
def OpenOp (records : List Wal.Record) (ver : Version) : DiskOp → Prop
  | .resizeWal size => size = DB.validEnd records
  | .removeSst n => n ∉ ver.allFiles.map FileMeta.number
  | .removeTmp _ => True
  | .openManifest => True
  | .openWal => True
  | _ => False

namespace Recoverable

variable {dir : Dir} {records : List Wal.Record} {ver : Version}

/-- The log of a recoverable directory, cut behind its records. -/
theorem take_validEnd (h : Recoverable dir records ver) {log : Bytes} (hlog : dir.wal = some log) :
    DB.validEnd records ≤ log.length ∧
      log.take (DB.validEnd records) = records.flatMap Wal.encodeRecord := by
  rcases h.wal with ⟨hnone, -⟩ | ⟨tail, hwal, -⟩
  · rw [hlog] at hnone
    exact nomatch hnone
  · exact validEnd_spec (Option.some.inj (hlog.symm.trans hwal))

/-- The directory with a log of exactly the records. -/
theorem cut (h : Recoverable dir records ver) :
    Recoverable { dir with wal := some (records.flatMap Wal.encodeRecord) } records ver := by
  refine { h with wal := Or.inr ⟨[], by rw [List.append_nil], ?_⟩ }
  exact Wal.replay_append h.fits

theorem openOp (h : Recoverable dir records ver) {op : DiskOp} (hop : OpenOp records ver op) :
    Recoverable (dir.exec op) records ver := by
  cases op with
  | resizeWal size =>
    obtain rfl : size = DB.validEnd records := hop
    cases hlog : dir.wal with
    | none =>
      have : dir.exec (.resizeWal (DB.validEnd records)) = dir := by
        rw [Dir.exec, hlog, Option.map_none, ← hlog]
      rwa [this]
    | some log =>
      obtain ⟨hlen, htake⟩ := h.take_validEnd hlog
      have : dir.exec (.resizeWal (DB.validEnd records)) =
          { dir with wal := some (records.flatMap Wal.encodeRecord) } := by
        rw [Dir.exec, hlog, Option.map_some, htake, Nat.sub_eq_zero_of_le hlen,
          List.replicate_zero, List.append_nil]
      rw [this]
      exact h.cut
  | removeSst n =>
    have hdisk : OnDisk (dir.exec (.removeSst n)) ver :=
      { h.toOnDisk with
        sst_nodup := h.sst_nodup.sublist (List.filter_sublist.map Prod.fst)
        sst_lt := fun p hp => h.sst_lt p (List.mem_filter.1 hp).1
        onDisk := fun fm hfm => List.mem_filter.2 ⟨h.onDisk fm hfm, decide_eq_true fun he =>
          hop (he ▸ List.mem_map_of_mem hfm)⟩ }
    refine { hdisk, h with manifest := h.manifest.imp_left fun hnone => ⟨hnone.1, hnone.2.1, ?_⟩ }
    rw [Dir.exec, hnone.2.2]
    rfl
  | removeTmp n => exact { h with }
  | openManifest =>
    refine { h with manifest := Or.inr ?_ }
    rcases h.manifest with ⟨hm, hv, -⟩ | ⟨snaps, files, hm, hrest⟩
    · exact ⟨[], [], by rw [Dir.exec, hm]; rfl, by rw [hv], rfl, by simp, by simp⟩
    · exact ⟨snaps, files, by rw [Dir.exec, hm]; rfl, hrest⟩
  | openWal =>
    rcases h.wal with ⟨hnone, rfl⟩ | ⟨tail, hwal, -⟩
    · have := h.cut
      rwa [Dir.exec, hnone]
    · have : dir.exec .openWal = dir := by
        rw [Dir.exec, hwal, Option.getD_some, ← hwal]
      rwa [this]
  | _ => exact hop.elim

theorem execAll (h : Recoverable dir records ver) {ops : List DiskOp}
    (hops : ∀ op ∈ ops, OpenOp records ver op) : Recoverable (dir.execAll ops) records ver := by
  induction ops generalizing dir with
  | nil => exact h
  | cons op ops ih =>
    exact ih (h.openOp (hops op List.mem_cons_self)) fun o ho => hops o (List.mem_cons_of_mem op ho)

/-- The open of a recoverable directory removes no live file and writes no snapshot. -/
theorem openOps_openOp (h : Recoverable dir records ver) {op : DiskOp} (hop : op ∈ DB.openOps dir) :
    OpenOp records ver op := by
  rw [openOps_eq, List.mem_append] at hop
  rcases hop with hop | hop
  · split at hop
    · rw [List.mem_singleton.1 hop, h.replay]
      rfl
    · simp at hop
  · rcases mem_openRest hop with ⟨n, -, rfl⟩ | ⟨n, hn, rfl⟩ | rfl | ⟨hm, hlive, -⟩ | rfl
    · trivial
    · intro hmem
      obtain ⟨fm, hfm, rfl⟩ := List.mem_map.1 hmem
      exact h.openable.live_kept hfm hn
    · trivial
    · exact absurd (h.openable.unlisted hm) hlive
    · trivial

theorem crashOpen (h : Recoverable dir records ver) (n : Nat) :
    Recoverable (dir.crashOpen n) records ver :=
  h.execAll fun _ hop => h.openOps_openOp (List.mem_of_mem_take hop)

theorem crashOpens (h : Recoverable dir records ver) (opens : List Nat) :
    Recoverable (opens.foldl Dir.crashOpen dir) records ver := by
  induction opens generalizing dir with
  | nil => exact h
  | cons n opens ih => exact ih (h.crashOpen n)

/-- A table under a new number that no snapshot lists. -/
theorem install (h : Recoverable dir records ver) (hman : dir.manifest ≠ none) {n : Nat}
    (hnew : n ∉ dir.sst.map Prod.fst) (hlt : n < 2 ^ 31 - 1) (file : Bytes) :
    Recoverable (dir.exec (.install n file)) records ver := by
  rw [Dir.exec, filter_number_ne hnew]
  refine ⟨{ h.toOnDisk with sst_nodup := ?_, sst_lt := ?_, onDisk := ?_ }, h.wal, h.fits, ?_⟩
  · exact List.nodup_cons.2 ⟨hnew, h.sst_nodup⟩
  · intro p hp
    rcases List.mem_cons.1 hp with rfl | hp
    · exact hlt
    · exact h.sst_lt p hp
  · exact fun fm hfm => List.mem_cons_of_mem _ (h.onDisk fm hfm)
  · exact Or.inr (h.manifest.resolve_left fun hc => hman hc.1)

end Recoverable

/-! ## What a directory holds -/

/-- The directory can be opened, on the files of `ver`, and the store then holds the entries
    `es`. -/
def Dir.Holds (dir : Dir) (ver : Version) (es : List Entry) : Prop :=
  ∃ records, Recoverable dir records ver ∧
    ∀ e, e ∈ es ↔ e ∈ records.map Wal.Record.entry ++ ver.allFiles.flatMap FileMeta.contents

/-- The same, with what the log and the tables hold apart: the open finds `mem` in the log. -/
def Dir.Keeps (dir : Dir) (ver : Version) (mem : List Entry) : Prop :=
  ∃ records, mem.Perm (records.map Wal.Record.entry) ∧ Recoverable dir records ver

theorem Dir.Keeps.holds {dir : Dir} {ver : Version} {mem es : List Entry} (h : dir.Keeps ver mem)
    (hes : ∀ e, e ∈ es ↔ e ∈ mem ++ ver.allFiles.flatMap FileMeta.contents) : dir.Holds ver es := by
  obtain ⟨records, hp, hR⟩ := h
  exact ⟨records, hR, fun e => (hes e).trans (hp.append_right _).mem_iff⟩

/-- The store holds the entries `es`, and every table the MANIFEST names is one of `ver` and is
    there with its whole content. -/
structure DB.Restores (db : DB) (ver : Version) (es : List Entry) : Prop where
  entries : ∀ e, e ∈ db.entries ↔ e ∈ es
  tables : ∀ entry ∈ Manifest.loadLatest db.dir.manifest, ∃ fm ∈ ver.allFiles,
    fm.manifestEntry = entry ∧ (fm.number, tableFile fm.contents) ∈ db.dir.sst

/-- A well-formed state whose MANIFEST can be read. -/
structure DB.Durable (db : DB) : Prop where
  wellFormed : db.WellFormed
  manifest : ManifestRead db.dir.manifest db.version

theorem ManifestRead.loadLatest {manifest : Option Bytes} {ver : Version}
    (h : ManifestRead manifest ver) {entry : ManifestEntry}
    (hentry : entry ∈ Manifest.loadLatest manifest) :
    ∃ fm ∈ ver.allFiles, fm.manifestEntry = entry := by
  obtain ⟨snaps, files, rfl, hp, hlast, hf, hok⟩ := h
  rw [loadLatest_log hf hok, hlast] at hentry
  obtain ⟨fm, hfm, rfl⟩ := List.mem_map.1 hentry
  exact ⟨fm, hp.mem_iff.1 hfm, rfl⟩

/-- **The open** succeeds and finds what the directory holds. -/
theorem Dir.Holds.open {dir : Dir} {ver : Version} {es : List Entry} (h : dir.Holds ver es)
    (opts : Options) (coins : List (List Bool)) :
    ∃ db, DB.open opts coins dir = .ok db ∧ db.Durable ∧ db.Restores ver es := by
  obtain ⟨records, hR, hes⟩ := h
  obtain ⟨db, hdb, -⟩ := hR.openable.open_spec opts coins
  have ho := hR.opened hdb
  have hman := hR.manifestRead hdb
  have hw := hR.openable.wellFormed hdb
  refine ⟨db, hdb, ⟨hw, hman⟩, fun e => ?_, fun entry hentry => ?_⟩
  · rw [ho.entries_perm.mem_iff, hes]
  · obtain ⟨fm, hfm, he⟩ := hman.loadLatest hentry
    exact ⟨fm, (allFiles_perm ho.files).mem_iff.1 hfm, he,
      hw.tables.onDisk fm (List.mem_append_left _ hfm)⟩

theorem Dir.Holds.crashOpens {dir : Dir} {ver : Version} {es : List Entry} (h : dir.Holds ver es)
    (opens : List Nat) : (opens.foldl Dir.crashOpen dir).Holds ver es := by
  obtain ⟨records, hR, hes⟩ := h
  exact ⟨records, hR.crashOpens opens, hes⟩

theorem Dir.Keeps.crashOpens {dir : Dir} {ver : Version} {mem : List Entry} (h : dir.Keeps ver mem)
    (opens : List Nat) : (opens.foldl Dir.crashOpen dir).Keeps ver mem := by
  obtain ⟨records, hp, hR⟩ := h
  exact ⟨records, hp, hR.crashOpens opens⟩

/-! ## Interrupted steps -/

/-- The MANIFEST reader takes the snapshot the operation writes, if it writes one. -/
def DiskOp.Readable : DiskOp → Prop
  | .appendManifest snapshot => Manifest.ReaderOk snapshot
  | _ => True

instance (op : DiskOp) : Decidable op.Readable := by
  unfold DiskOp.Readable
  split <;> infer_instance

/-- What the step writes is within the limits of the log, of the tables and of the MANIFEST
    reader. -/
structure DB.Within (db : DB) (ev : Event) : Prop extends db.Fits ev where
  manifest : ∀ op ∈ db.diskOps ev, op.Readable

instance (db : DB) (ev : Event) : Decidable (db.Within ev) :=
  decidable_of_iff (db.Fits ev ∧ ∀ op ∈ db.diskOps ev, op.Readable)
    ⟨fun h => ⟨h.1, h.2⟩, fun h => ⟨h.toFits, h.manifest⟩⟩

/-- Over the threshold `maybe_flush` is `flush`. -/
theorem DB.Within.flush_of_maybe {db : DB} (h : db.Within .maybeFlush)
    (ht : db.opts.flushThresholdBytes.toNat ≤ db.memtable.approxBytes) : db.Within .flush where
  log := h.log
  tables := fun es hes => List.mem_singleton.1 hes ▸ h.tables.maybeFlush ht
  manifest := by
    have := h.manifest
    rwa [show db.diskOps .maybeFlush = db.diskOps .flush from if_pos ht] at this

/-- Only `apply` appends to the log. -/
theorem diskOps_not_append {db : DB} {ev : Event} (hev : ∀ coins, ev ≠ .apply coins) {op : DiskOp}
    (h : op ∈ db.diskOps ev) (records : List Wal.Record) : op ≠ .appendWal records := by
  cases ev with
  | apply coins => exact absurd rfl (hev coins)
  | flush => exact flushDiskOps_not_append h records
  | maybeFlush =>
    simp only [DB.diskOps] at h
    split at h
    · exact flushDiskOps_not_append h records
    · simp at h
  | reopen opts coins => exact openOps_not_append h records
  | _ => exact keepsWal_not_append (diskOps_keepsWal rfl h) records

namespace DB.Durable

variable {db db₁ : DB}

/-- Every step but `reopen`. -/
theorem step (h : db.Durable) {ev : Event} (hread : db.Within ev)
    (hev : ∀ opts coins, ev ≠ .reopen opts coins) (hstep : db.step ev = some db₁) :
    db₁.Durable := by
  have hw := h.wellFormed.step hev hread.toFits hstep
  refine ⟨hw, ?_⟩
  rcases DB.step_manifest hev hstep with ⟨hver, hman⟩ | ⟨hman, hop⟩
  · rw [hver, hman]
    exact h.manifest
  · rw [hman]
    exact (h.manifest.append hw.okFiles).read (hread.manifest _ hop)

theorem recoverable (h : db.Durable) : ∃ records,
    db.memtable.entries.Perm (records.map Wal.Record.entry) ∧ Recoverable db.dir records db.version :=
  h.wellFormed.tables.recoverable h.wellFormed.log h.manifest

theorem holds (h : db.Durable) : db.dir.Holds db.version db.entries :=
  Dir.Keeps.holds h.recoverable fun _ => Iff.rfl

/-- A flush: until the snapshot is written the old version is live, with the new table as an
    orphan at most; from then on the new one, with the log still there or not. -/
theorem flush_keeps (h : db.Durable) (hread : db.Within .flush) (hflush : db.flush = some db₁)
    (n : Nat) :
    (db.dir.execAll (db.flushDiskOps.take n)).Keeps db.version db.memtable.entries ∨
      (db.dir.execAll (db.flushDiskOps.take n)).Keeps db₁.version db.memtable.entries ∨
      (db.dir.execAll (db.flushDiskOps.take n)).Keeps db₁.version db₁.memtable.entries := by
  have h₁ : db₁.Durable := h.step hread (fun _ _ => nofun) hflush
  have hdir := DB.flush_dir hflush
  obtain ⟨records, hp, hR⟩ := h.recoverable
  obtain ⟨log, hwal⟩ := Option.isSome_iff_exists.1 h.wellFormed.stored.wal
  have hman : db.dir.manifest ≠ none := by
    obtain ⟨snaps, files, hm, -⟩ := h.manifest
    rw [hm]
    nofun
  rcases DB.flush_shape hflush with ⟨hz, rfl⟩ | ⟨hz, hlt, file, fm, hbuild, he⟩
  · rw [DB.flushDiskOps, if_pos hz, List.take_nil]
    exact Or.inl h.recoverable
  · have hops : db.flushDiskOps = DB.flushOps db.nextSst file (db.version.pushL0 fm) := by
      rw [DB.flushDiskOps, if_neg hz, hbuild]
    have htmp : Recoverable (db.dir.exec (.writeTmp db.nextSst)) records db.version := { hR with }
    rw [hops] at hdir ⊢
    rcases n with _ | _ | _ | _ | _ | n
    · exact Or.inl h.recoverable
    · exact Or.inl ⟨records, hp, htmp⟩
    · exact Or.inl ⟨records, hp, htmp.install hman h.wellFormed.tables.next_new hlt file⟩
    · -- the log still has the entries of the new table
      have hsst : (db.dir.execAll ((DB.flushOps db.nextSst file (db.version.pushL0 fm)).take 3)).sst =
          db₁.dir.sst := by rw [hdir]; rfl
      have hmanifest : (db.dir.execAll ((DB.flushOps db.nextSst file
          (db.version.pushL0 fm)).take 3)).manifest = db₁.dir.manifest := by rw [hdir]; rfl
      exact Or.inr (Or.inl (TablesOk.recoverable (hsst ▸ h₁.wellFormed.tables)
        (show LogOk (db.dir.execAll ((DB.flushOps db.nextSst file
          (db.version.pushL0 fm)).take 3)).wal db.memtable.entries from h.wellFormed.log)
        (hmanifest ▸ h₁.manifest)))
    · have : db.dir.execAll ((DB.flushOps db.nextSst file (db.version.pushL0 fm)).take 4) =
          db₁.dir := by
        rw [hdir]
        simp [DB.flushOps, Dir.execAll, Dir.exec, hwal]
      rw [this]
      exact Or.inr (Or.inr h₁.recoverable)
    · rw [List.take_of_length_le (by simp [DB.flushOps]), ← hdir]
      exact Or.inr (Or.inr h₁.recoverable)

/-- A step of at most one operation is done or not. -/
theorem take_of_one (h : db.Durable) {ev : Event} (hread : db.Within ev)
    (hev : ∀ opts coins, ev ≠ .reopen opts coins) (hone : (db.diskOps ev).length ≤ 1)
    (hstep : db.step ev = some db₁) (n : Nat) :
    (db.dir.execAll ((db.diskOps ev).take n)).Keeps db.version db.memtable.entries ∨
      (db.dir.execAll ((db.diskOps ev).take n)).Keeps db₁.version db₁.memtable.entries := by
  cases n with
  | zero => exact Or.inl h.recoverable
  | succ n =>
    rw [List.take_of_length_le (by omega), ← DB.step_dir hstep]
    exact Or.inr (h.step hread hev hstep).recoverable

/-- What an interrupted step leaves in the log and in the tables. -/
theorem crashIn_keeps (h : db.Durable) {ev : Event} (hread : db.Within ev)
    (hev : ∀ coins, ev ≠ .apply coins) (hstep : db.step ev = some db₁) (done cut : Nat) :
    (db.dir.crashIn (db.diskOps ev) done cut).Keeps db.version db.memtable.entries ∨
      (db.flush = some db₁ ∧ BlocksFit db.memtable.entries ∧
        (db.dir.crashIn (db.diskOps ev) done cut).Keeps db₁.version db.memtable.entries) ∨
      (db.dir.crashIn (db.diskOps ev) done cut).Keeps db₁.version db₁.memtable.entries := by
  rw [crashIn_eq fun op hop => diskOps_not_append hev hop]
  have hone : (∀ opts coins, ev ≠ .reopen opts coins) → (db.diskOps ev).length ≤ 1 →
      (db.dir.execAll ((db.diskOps ev).take done)).Keeps db.version db.memtable.entries ∨
        (db.flush = some db₁ ∧ BlocksFit db.memtable.entries ∧
          (db.dir.execAll ((db.diskOps ev).take done)).Keeps db₁.version db.memtable.entries) ∨
        (db.dir.execAll ((db.diskOps ev).take done)).Keeps db₁.version db₁.memtable.entries :=
    fun hre hlen => (h.take_of_one hread hre hlen hstep done).imp_right Or.inr
  cases ev with
  | apply coins => exact absurd rfl (hev coins)
  | flush =>
    exact (h.flush_keeps hread hstep done).imp_right
      (Or.imp_left fun hk => ⟨hstep, hread.tables.flush, hk⟩)
  | maybeFlush =>
    rcases DB.maybeFlush_inv hstep with ⟨ht, hflush⟩ | ⟨ht, rfl⟩
    · rw [show db.diskOps .maybeFlush = db.diskOps .flush from if_pos ht]
      exact (h.flush_keeps (hread.flush_of_maybe ht) hflush done).imp_right
        (Or.imp_left fun hk => ⟨hflush, hread.tables.maybeFlush ht, hk⟩)
    · rw [show db₁.diskOps .maybeFlush = [] from if_neg ht, List.take_nil]
      exact Or.inl h.recoverable
  | reopen opts coins =>
    obtain ⟨records, hp, hR⟩ := h.recoverable
    exact Or.inl ⟨records, hp, hR.crashOpen done⟩
  | finishWriter =>
    refine hone (by simp) ?_
    simp only [DB.diskOps]
    split
    · split <;> simp
    · simp
  | commit =>
    refine hone (by simp) ?_
    simp only [DB.diskOps]
    split
    · split <;> simp
    · simp
  | _ => exact hone (by simp) (by simp [DB.diskOps])

/-- Behind a flush, what it has written may be in the log as well. -/
theorem mem_entries_flushed (h : db.Durable) (hfit : BlocksFit db.memtable.entries)
    (hflush : db.flush = some db₁) (e : Entry) :
    e ∈ db₁.entries ↔ e ∈ db.memtable.entries ++ db₁.tables := by
  constructor
  · intro he
    rcases DB.flush_shape hflush with ⟨-, rfl⟩ | ⟨-, -, file, fm, -, hdb₁⟩
    · exact he
    · have hfresh : db₁.memtable.entries = [] := by rw [hdb₁]; exact Memtable.entries_fresh
      rw [DB.entries, hfresh, List.nil_append] at he
      exact List.mem_append_right _ he
  · intro he
    rcases List.mem_append.1 he with he | he
    · exact (entries_flush h.wellFormed.stored hfit hflush).mem_iff.2 (List.mem_append_left _ he)
    · exact List.mem_append_right _ he

/-- **An interrupted step** leaves what was there before it or what is there after it. -/
theorem crashIn (h : db.Durable) {ev : Event} (hread : db.Within ev)
    (hev : ∀ coins, ev ≠ .apply coins) (hstep : db.step ev = some db₁) (done cut : Nat) :
    (db.dir.crashIn (db.diskOps ev) done cut).Holds db.version db.entries ∨
      (db.dir.crashIn (db.diskOps ev) done cut).Holds db₁.version db₁.entries := by
  rcases h.crashIn_keeps hread hev hstep done cut with hk | ⟨hflush, hfit, hk⟩ | hk
  · exact Or.inl (hk.holds fun _ => Iff.rfl)
  · exact Or.inr (hk.holds (h.mem_entries_flushed hfit hflush))
  · exact Or.inr (hk.holds fun _ => Iff.rfl)

/-- The log and the tables after an interrupted append. -/
theorem crashIn_apply_keeps (h : db.Durable) (done cut : Nat) :
    ∃ kept, kept <+: db.inflight ∧ (done ≠ 0 → kept = db.inflight) ∧
      (db.dir.crashIn [.appendWal db.inflight] done cut).Keeps db.version
        (kept.map Wal.Record.entry ++ db.memtable.entries) := by
  obtain ⟨p, hp, hall, he⟩ := Keystone.crashIn_apply db.dir db.inflight done cut
  obtain ⟨rs, hwal, hfit, hperm⟩ := h.wellFormed.log
  obtain ⟨records, hp', hR⟩ := h.recoverable
  have hrs : rs = records := by rw [← hR.replay, hwal, Wal.replay_append hfit]
  subst hrs
  -- what is read of the torn log
  obtain ⟨kept, hkept, hdone, hreplay⟩ : ∃ kept, kept <+: db.inflight ∧
      (done ≠ 0 → kept = db.inflight) ∧
      Wal.replay (some (rs.flatMap Wal.encodeRecord ++ p)) = rs ++ kept := by
    by_cases hd : done = 0
    · obtain ⟨kept, hkept, hreplay⟩ := Wal.replay_torn hfit h.wellFormed.inflight hp
      exact ⟨kept, hkept, fun hne => absurd hd hne, hreplay⟩
    · refine ⟨db.inflight, List.prefix_rfl, fun _ => rfl, ?_⟩
      rw [hall hd, ← List.flatMap_append]
      refine Wal.replay_append fun r hr => ?_
      exact (List.mem_append.1 hr).elim (hfit r) (h.wellFormed.inflight r)
  refine ⟨kept, hkept, hdone, rs ++ kept, ?_, ?_⟩
  · rw [List.map_append]
    exact (hperm.append_left _).trans List.perm_append_comm
  · rw [he, hwal, Option.getD_some]
    obtain ⟨rest, hsplit, -⟩ := Wal.replay_split (rs.flatMap Wal.encodeRecord ++ p)
    refine { hR with wal := Or.inr ⟨rest, ?_, hreplay⟩, fits := ?_ }
    · rw [← hreplay]
      exact congrArg some hsplit
    · rw [← hreplay]
      exact Wal.replay_fits _

/-- **An interrupted append** leaves some first records of the batch, and all of them once it
    is through. -/
theorem crashIn_apply (h : db.Durable) (done cut : Nat) :
    ∃ kept, kept <+: db.inflight ∧ (done ≠ 0 → kept = db.inflight) ∧
      (db.dir.crashIn [.appendWal db.inflight] done cut).Holds db.version
        (kept.map Wal.Record.entry ++ db.entries) := by
  obtain ⟨kept, hkept, hdone, hk⟩ := h.crashIn_apply_keeps done cut
  refine ⟨kept, hkept, hdone, hk.holds fun e => ?_⟩
  rw [List.append_assoc]
  rfl

end DB.Durable

/-! ## Runs -/

/-- What the open behind a crash finds, if the step would have led from `db` to `db₁`: before or
    after; in the append of a batch, some first records of it, and all once it is through. -/
def DB.Atomic (db db₁ : DB) (c : CrashAt) (db' : DB) : Prop :=
  match c.ev with
  | .apply _ => ∃ kept, kept <+: db.inflight ∧ (c.done ≠ 0 → kept = db.inflight) ∧
      db'.Restores db.version (kept.map Wal.Record.entry ++ db.entries)
  | _ => db'.Restores db.version db.entries ∨ db'.Restores db₁.version db₁.entries

/-- The step that is made or interrupted. -/
def LifeEvent.event : LifeEvent → Event
  | .run ev => ev
  | .crash c => c.ev

/-- Records are within the limits of the log, blocks within what one `pread` returns, snapshots
    within the limits of the MANIFEST reader. -/
def LimitsOk (db : DB) (ev : LifeEvent) : Prop := db.Within ev.event

instance (db : DB) (ev : LifeEvent) : Decidable (LimitsOk db ev) :=
  inferInstanceAs (Decidable (db.Within ev.event))

namespace DB.Durable

variable {db db' db₁ : DB}

/-- A crash, interrupted opens, and the open that goes through. -/
theorem crash (h : db.Durable) {c : CrashAt} (hread : LimitsOk db (.crash c))
    (hstep : db.step c.ev = some db₁) :
    ∃ db', db.crash c = some db' ∧ db'.Durable ∧ db.Atomic db₁ c db' := by
  have hopen : ∀ ver es, (db.dir.crashIn (db.diskOps c.ev) c.done c.cut).Holds ver es →
      ∃ db', db.crash c = some db' ∧ db'.Durable ∧ db'.Restores ver es := by
    intro ver es hh
    obtain ⟨db', hdb, hd, hr⟩ := (hh.crashOpens c.opens).open c.opts c.coins
    refine ⟨db', ?_, hd, hr⟩
    rw [DB.crash, hstep, Option.isSome_some, if_pos rfl]
    show (DB.open c.opts c.coins (c.opens.foldl Dir.crashOpen _)).toOption = _
    rw [hdb]
    rfl
  unfold DB.Atomic
  split
  · rename_i coins hev
    rw [hev] at hopen
    obtain ⟨kept, hkept, hdone, hh⟩ := h.crashIn_apply c.done c.cut
    obtain ⟨db', hdb, hd, hr⟩ := hopen _ _ hh
    exact ⟨db', hdb, hd, kept, hkept, hdone, hr⟩
  · rename_i hev
    rcases h.crashIn hread hev hstep c.done c.cut with hh | hh
    · obtain ⟨db', hdb, hd, hr⟩ := hopen _ _ hh
      exact ⟨db', hdb, hd, Or.inl hr⟩
    · obtain ⟨db', hdb, hd, hr⟩ := hopen _ _ hh
      exact ⟨db', hdb, hd, Or.inr hr⟩

theorem reopen (h : db.Durable) {opts : Options} {coins : List (List Bool)}
    (hstep : db.reopen opts coins = some db') :
    db'.Durable ∧ db'.Restores db.version db.entries := by
  obtain ⟨-, -, -, -, hopen⟩ := DB.reopen_inv hstep
  obtain ⟨db₁, hopen₁, hd, hr⟩ := h.holds.open opts coins
  obtain rfl := Except.ok.inj (hopen.symm.trans hopen₁)
  exact ⟨hd, hr⟩

theorem live (h : db.Durable) {ev : LifeEvent} (hlim : LimitsOk db ev)
    (hstep : db.live ev = some db') : db'.Durable := by
  cases ev with
  | crash c =>
    obtain ⟨⟨db₁, hstep₁⟩, -⟩ := DB.crash_inv hstep
    obtain ⟨db₂, hcrash, hd, -⟩ := h.crash hlim hstep₁
    exact Option.some.inj (hcrash.symm.trans hstep) ▸ hd
  | run ev =>
    by_cases hev : ∀ opts coins, ev ≠ .reopen opts coins
    · exact h.step hlim hev hstep
    · push Not at hev
      obtain ⟨opts, coins, rfl⟩ := hev
      exact (h.reopen hstep).1

end DB.Durable

theorem DB.durable_create (opts : Options) : (DB.create opts).Durable :=
  ⟨DB.wellFormed_create opts, [], [], rfl, List.Perm.refl _, rfl, by simp, by simp⟩

/-- **Crash atomicity.** After any run of calls, engine steps, reopens and crashes: a crash in any
    step is followed by an open that succeeds and finds the entries from before the step or
    after it; a reopen finds what was there; and in each case the tables of the MANIFEST are
    there. A batch whose append is through, as it is before any of its calls returns, is held
    as a whole. -/
theorem crash_atomic {opts : Options} {evs : List LifeEvent} {db : DB}
    (hlim : Steps.Meets DB.live LimitsOk (DB.create opts) evs)
    (hrun : Steps.run DB.live (DB.create opts) evs = some db) :
    (∀ c db₁, db.step c.ev = some db₁ → LimitsOk db (.crash c) →
      ∃ db', db.crash c = some db' ∧ db.Atomic db₁ c db') ∧
    (∀ opts coins db', db.reopen opts coins = some db' → db'.Restores db.version db.entries) ∧
    ∀ coins db', db.apply coins = some db' →
      ∀ e, e ∈ db'.entries ↔ e ∈ db.inflight.map Wal.Record.entry ++ db.entries := by
  have h : db.Durable := Steps.run_invariant (fun _ _ _ hd hl hs => DB.Durable.live hd hl hs)
    (DB.durable_create opts) hlim hrun
  refine ⟨fun c db₁ hstep hc => ?_, fun opts coins db' hstep => (h.reopen hstep).2,
    fun coins db' hstep e => (entries_apply hstep).mem_iff⟩
  obtain ⟨db', hcrash, -, hatomic⟩ := h.crash hc hstep
  exact ⟨db', hcrash, hatomic⟩

/-- A crash between the snapshot of a flush and the truncation of the log, and an open that is
    interrupted after its second operation. -/
def flushCrash : CrashAt := ⟨.flush, 3, 0, [2], {}, []⟩

theorem crash_atomic_flush : ∃ db db₁ db', Steps.run DB.live (DB.create {}) crashRun = some db ∧
    db.step .flush = some db₁ ∧ db.crash flushCrash = some db' ∧ db.Atomic db₁ flushCrash db' := by
  have hlim : Steps.Meets DB.live LimitsOk (DB.create {}) crashRun := by decide +kernel
  have hlast : ((Steps.run DB.live (DB.create {}) crashRun).any fun db =>
      (db.step .flush).isSome && decide (LimitsOk db (.crash flushCrash))) = true := by
    decide +kernel
  obtain ⟨db, hrun, h⟩ := (Option.any_eq_true _ _).1 hlast
  rw [Bool.and_eq_true, decide_eq_true_eq] at h
  obtain ⟨db₁, hstep⟩ := Option.isSome_iff_exists.1 h.1
  obtain ⟨db', hcrash, hatomic⟩ := (crash_atomic hlim hrun).1 flushCrash db₁ hstep h.2
  exact ⟨db, db₁, db', hrun, hstep, hcrash, hatomic⟩

end Keystone
