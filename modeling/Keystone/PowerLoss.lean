/-
  Losses of power.

  A process that is killed leaves everything it has written; a loss of power takes with it what no
  `durable_sync` has made durable. The model of the disk, for `SyncMode::EveryWrite` (read this
  before the theorems):

  * `wal.log` comes back with any content it has had since its last sync. An append syncs it; the
    truncation behind a flush and that of an open do not. An append in progress may be there up to
    any byte.
  * The directory is synced where a table is installed. A table that was listed then and has been
    unlinked since may come back; a rename may be there before its sync. Of the temporary files
    any may be there.
  * A table is synced before its rename. A snapshot of the MANIFEST is there or not, and is there
    once it is synced. `wal.log` and `MANIFEST` exist from the first open on.

  A loss comes in any step, after any of its operations, and again in the opens that follow.
  Nothing is said about `SyncMode::Batched`, nor about a loss behind a process that was killed
  while it logged a batch: the next process reads such a log, but does not sync it.

  * `DB.Agrees log`: with `log` in the place of its own log the store would show the same.
  * `power_reads`: what get and scan return is what an abstract store keeps that loses no write
    that was acknowledged.
-/
import Keystone.CrashReads

namespace Keystone

/-! ## The machine -/

/-- What a loss of power may bring back: the contents of `wal.log` from its last sync on, and the
    tables that were listed when the directory was last synced. -/
structure Volatile where
  logs : List (Option Bytes)
  sst : List (Nat × Bytes)

namespace Volatile

/-- Everything is durable. -/
def start (dir : Dir) : Volatile := ⟨[dir.wal], dir.sst⟩

def exec (v : Volatile) (dir : Dir) (op : DiskOp) : Volatile :=
  match op with
  | .appendWal _ => { v with logs := [(dir.exec op).wal] }
  | .resizeWal _ | .openWal => { v with logs := v.logs ++ [(dir.exec op).wal] }
  | .install _ _ => { v with sst := (dir.exec op).sst }
  | _ => v

def execAll : Volatile → Dir → List DiskOp → Volatile
  | v, _, [] => v
  | v, dir, op :: ops => execAll (v.exec dir op) (dir.exec op) ops

end Volatile

/-- Where a sequence of operations is cut off, and what comes back: `synced` operations are
    through, the next one may have `reached` the disk without its sync, `cut` is how much of an
    append in progress is there, `log` picks an older content of the log. -/
structure LossPoint where
  synced : Nat
  reached : Bool
  cut : Nat
  log : Option Nat
  revived : List Nat
  tmp : List Nat

namespace Dir

/-- The tables that come back beside those that are there. -/
def revived (dir : Dir) (sst : List (Nat × Bytes)) (numbers : List Nat) : List (Nat × Bytes) :=
  sst.filter fun p => p.1 ∈ numbers ∧ p.1 ∉ dir.sst.map Prod.fst

/-- Another log, tables that come back and any temporary files. -/
def lose (dir : Dir) (wal : Option Bytes) (sst : List (Nat × Bytes)) (p : LossPoint) : Dir :=
  { dir with wal := wal, sst := dir.sst ++ dir.revived sst p.revived, tmp := p.tmp }

/-- The directory that the next process finds. -/
def lossIn (dir : Dir) (v : Volatile) (ops : List DiskOp) (p : LossPoint) : Option Dir :=
  let found := dir.crashIn ops (p.synced + p.reached.toNat) p.cut
  let old := v.execAll dir (ops.take p.synced)
  match p.log with
  | none => some (found.lose found.wal old.sst p)
  | some i => (old.logs[i]?).map fun wal => found.lose wal old.sst p

/-- The open does not get through. -/
def lossOpen (dir : Dir) (p : LossPoint) : Option Dir :=
  dir.lossIn (.start dir) (DB.openOps dir) p

end Dir

/-- A loss in the step `ev`, losses in the opens behind it, and one that goes through. -/
structure LossAt where
  ev : Event
  point : LossPoint
  opens : List LossPoint
  opts : Options
  coins : List (List Bool)

/-- The store and its disk. -/
structure Powered where
  db : DB
  disk : Volatile

inductive PowerEvent where
  | run (ev : Event)
  | loss (c : LossAt)

namespace Powered

def create (opts : Options) : Powered := ⟨DB.create opts, .start (DB.create opts).dir⟩

/-- The directory the last open finds. -/
def lossDir (p : Powered) (c : LossAt) : Option Dir :=
  (p.db.dir.lossIn p.disk (p.db.diskOps c.ev) c.point).bind fun dir =>
    c.opens.foldlM Dir.lossOpen dir

def loss (p : Powered) (c : LossAt) : Option Powered :=
  if (p.db.step c.ev).isSome then
    (p.lossDir c).bind fun dir =>
      (DB.open c.opts c.coins dir).toOption.map fun db =>
        ⟨db, (Volatile.start dir).execAll dir (DB.openOps dir)⟩
  else none

def step (p : Powered) : PowerEvent → Option Powered
  | .run ev => (p.db.step ev).map fun db =>
      ⟨db, p.disk.execAll p.db.dir (p.db.diskOps ev)⟩
  | .loss c => p.loss c

end Powered

/-! ## What may come back -/

theorem Volatile.execAll_append (v : Volatile) (dir : Dir) (ops ops' : List DiskOp) :
    v.execAll dir (ops ++ ops') = (v.execAll dir ops).execAll (dir.execAll ops) ops' := by
  induction ops generalizing v dir with
  | nil => rfl
  | cons op ops ih => exact ih (v.exec dir op) (dir.exec op)

/-- Operations that leave an existing log as it is. -/
theorem logs_keepsWal {ops : List DiskOp} (hops : ∀ op ∈ ops, op.keepsWal = true) (v : Volatile)
    {dir : Dir} (hwal : dir.wal.isSome = true) : (dir.execAll ops).wal = dir.wal ∧
      ∀ w ∈ (v.execAll dir ops).logs, w ∈ v.logs ∨ w = dir.wal := by
  induction ops generalizing v dir with
  | nil => exact ⟨rfl, fun w hw => Or.inl hw⟩
  | cons op ops ih =>
    have hop := hops op List.mem_cons_self
    have hsame : (dir.exec op).wal = dir.wal := by
      cases op with
      | appendWal records => exact absurd hop Bool.false_ne_true
      | resizeWal size => exact absurd hop Bool.false_ne_true
      | openWal =>
        obtain ⟨log, hlog⟩ := Option.isSome_iff_exists.1 hwal
        simp [Dir.exec, hlog]
      | _ => rfl
    have hlogs : ∀ w ∈ (v.exec dir op).logs, w ∈ v.logs ∨ w = dir.wal := by
      intro w hw
      cases op with
      | appendWal records => exact absurd hop Bool.false_ne_true
      | resizeWal size => exact absurd hop Bool.false_ne_true
      | openWal =>
        exact (List.mem_append.1 hw).imp_right fun hw => (List.mem_singleton.1 hw).trans hsame
      | _ => exact Or.inl hw
    obtain ⟨hall, hmem⟩ := ih (fun o ho => hops o (List.mem_cons_of_mem op ho)) (v.exec dir op)
      (hsame ▸ hwal)
    refine ⟨hall.trans hsame, fun w hw => ?_⟩
    rcases hmem w hw with hw | hw
    · exact hlogs w hw
    · exact Or.inr (hw.trans hsame)

/-- At most one truncation, and no append. -/
def CutsOnce (ops : List DiskOp) : Prop :=
  ∃ before after : List DiskOp, (∀ op ∈ before ++ after, op.keepsWal = true) ∧
    (ops = before ∨ ∃ size, ops = before ++ .resizeWal size :: after)

/-- What the log may be behind the first operations: as before them, or as it is after them. -/
theorem logs_cutsOnce {ops : List DiskOp} (hops : CutsOnce ops) (v : Volatile) {dir : Dir}
    (hwal : dir.wal.isSome = true) {m n : Nat} (hmn : m ≤ n) {w : Option Bytes}
    (hw : w ∈ (v.execAll dir (ops.take m)).logs) :
    w ∈ v.logs ∨ w = dir.wal ∨ w = (dir.execAll (ops.take n)).wal := by
  obtain ⟨before, after, hkeep, hops⟩ := hops
  have hbefore : ∀ op ∈ before, op.keepsWal = true := fun op hop =>
    hkeep op (List.mem_append_left _ hop)
  have hafter : ∀ k, ∀ op ∈ after.take k, op.keepsWal = true := fun k op hop =>
    hkeep op (List.mem_append_right _ (List.mem_of_mem_take hop))
  have hearly : ∀ k, w ∈ (v.execAll dir (before.take k)).logs → w ∈ v.logs ∨ w = dir.wal :=
    fun k => (logs_keepsWal (fun op hop => hbefore op (List.mem_of_mem_take hop)) v hwal).2 w
  rcases hops with rfl | ⟨size, rfl⟩
  · exact (hearly m hw).imp_right Or.inl
  by_cases hm : m ≤ before.length
  · rw [List.take_append_of_le_length hm] at hw
    exact (hearly m hw).imp_right Or.inl
  · -- the truncation is through
    obtain ⟨i, rfl⟩ : ∃ i, m = before.length + (i + 1) := ⟨m - before.length - 1, by omega⟩
    obtain ⟨j, rfl⟩ : ∃ j, n = before.length + (j + 1) := ⟨n - before.length - 1, by omega⟩
    rw [List.take_length_add_append, List.take_succ_cons] at hw ⊢
    rw [Volatile.execAll_append] at hw
    rw [execAll_append]
    have hcut : (((dir.execAll before).exec (.resizeWal size)).wal).isSome = true := by
      simp only [Dir.exec, Option.isSome_map, (logs_keepsWal hbefore v hwal).1, hwal]
    have hsame := (logs_keepsWal (hafter j) v hcut).1
    rcases (logs_keepsWal (hafter i) _ hcut).2 w hw with hw | hw
    · rcases List.mem_append.1 hw with hw | hw
      · exact ((logs_keepsWal hbefore v hwal).2 w hw).imp_right Or.inl
      · exact Or.inr (Or.inr ((List.mem_singleton.1 hw).trans hsame.symm))
    · exact Or.inr (Or.inr (hw.trans hsame.symm))

theorem cutsOnce_openOps {dir : Dir} (hwal : dir.wal.isSome = true) : CutsOnce (DB.openOps dir) := by
  have hops : DB.openOps dir = [] ++
      .resizeWal (DB.validEnd (Wal.replay dir.wal)) :: DB.openRest dir := by
    rw [openOps_eq, if_pos hwal]
    rfl
  exact ⟨[], DB.openRest dir, fun op hop => openRest_keepsWal hop, Or.inr ⟨_, hops⟩⟩

theorem cutsOnce_flush (db : DB) : CutsOnce db.flushDiskOps := by
  rcases flushDiskOps_cases db with he | ⟨file, fm, -, he⟩ <;> rw [he]
  · exact ⟨[], [], by simp, Or.inl rfl⟩
  · refine ⟨[.writeTmp db.nextSst, .install db.nextSst file,
      .appendManifest (db.version.pushL0 fm).toManifest], [.openWal], ?_, Or.inr ⟨0, rfl⟩⟩
    simp [DiskOp.keepsWal]

theorem cutsOnce_diskOps {db : DB} (hwal : db.dir.wal.isSome = true) {ev : Event}
    (hev : ∀ coins, ev ≠ .apply coins) : CutsOnce (db.diskOps ev) := by
  by_cases hlog : ev.ofLog = false
  · exact ⟨db.diskOps ev, [], fun op hop => diskOps_keepsWal hlog (by simpa using hop), Or.inl rfl⟩
  · cases ev with
    | apply coins => exact absurd rfl (hev coins)
    | flush => exact cutsOnce_flush db
    | maybeFlush =>
      simp only [DB.diskOps]
      split
      · exact cutsOnce_flush db
      · exact ⟨[], [], by simp, Or.inl rfl⟩
    | reopen opts coins => exact cutsOnce_openOps hwal
    | _ => exact absurd rfl hlog

/-- Without an installed table the directory is not synced. -/
theorem listed_of_no_install {ops : List DiskOp} (hops : ∀ n file, .install n file ∉ ops)
    (v : Volatile) (dir : Dir) : (v.execAll dir ops).sst = v.sst := by
  induction ops generalizing v dir with
  | nil => rfl
  | cons op ops ih =>
    have hop : (v.exec dir op).sst = v.sst := by
      cases op with
      | install n file => exact absurd List.mem_cons_self (hops n file)
      | _ => rfl
    exact (ih (fun n file hmem => hops n file (List.mem_cons_of_mem op hmem)) _ _).trans hop

theorem listed_flush {db db₁ : DB} (hflush : db.flush = some db₁) (v : Volatile) (m : Nat) :
    (v.execAll db.dir (db.flushDiskOps.take m)).sst = v.sst ∨
      (v.execAll db.dir (db.flushDiskOps.take m)).sst = db₁.dir.sst := by
  rw [DB.flush_dir hflush]
  rcases flushDiskOps_cases db with he | ⟨file, fm, -, he⟩ <;> rw [he]
  · rw [List.take_nil]
    exact Or.inl rfl
  · rcases m with _ | _ | m
    · exact Or.inl rfl
    · exact Or.inl rfl
    · have hrest : ∀ n file', .install n file' ∉ ([.appendManifest (db.version.pushL0 fm).toManifest,
          .resizeWal 0, .openWal] : List DiskOp).take m := fun n file' hmem => by
        simpa using List.mem_of_mem_take hmem
      exact Or.inr (listed_of_no_install hrest ((v.exec db.dir (.writeTmp db.nextSst)).exec
        (db.dir.exec (.writeTmp db.nextSst)) (.install db.nextSst file)) _)

/-- The tables listed when the directory was last synced are those of before, or of the end of
    the step. -/
theorem listed_step {db db₁ : DB} {ev : Event} (hstep : db.step ev = some db₁) (v : Volatile)
    (m : Nat) : (v.execAll db.dir ((db.diskOps ev).take m)).sst = v.sst ∨
      (v.execAll db.dir ((db.diskOps ev).take m)).sst = db₁.dir.sst := by
  have hnone : (∀ n file, .install n file ∉ db.diskOps ev) →
      (v.execAll db.dir ((db.diskOps ev).take m)).sst = v.sst := fun h =>
    listed_of_no_install (fun n file hmem => h n file (List.mem_of_mem_take hmem)) v db.dir
  cases ev with
  | flush => exact listed_flush hstep v m
  | maybeFlush =>
    simp only [DB.step, DB.maybeFlush, DB.diskOps] at hstep ⊢
    split at hstep
    · rename_i ht
      rw [if_pos ht]
      exact listed_flush hstep v m
    · rename_i ht
      rw [if_neg ht, List.take_nil]
      exact Or.inl rfl
  | finishWriter =>
    obtain ⟨job, chunks, number, chunk, outputs, file, fm, hj, hbuild, rfl⟩ :=
      DB.finishWriter_shape hstep
    simp only [DB.diskOps, hj, hbuild]
    rcases m with _ | m
    · exact Or.inl rfl
    · rw [List.take_succ_cons, List.take_nil]
      exact Or.inr rfl
  | reopen opts coins => exact Or.inl (hnone fun n file => openOps_not_install)
  | commit =>
    refine Or.inl (hnone fun n file hmem => ?_)
    simp only [DB.diskOps] at hmem
    split at hmem
    · split at hmem <;> simp at hmem
    · simp at hmem
  | _ => exact Or.inl (hnone (by simp [DB.diskOps]))

/-! ## Logs that show the same -/

theorem visible_append_of_covers {log tables : List Entry} (hcov : Covers log tables)
    (hu : UniqueSeqs (log ++ tables)) (k : Bytes) (s : UInt64) :
    visible (log ++ tables) k s =
      if newestEntry log k s = none then visible tables k s else visible log k s := by
  have h : newestEntry (log ++ tables) k s = (newestEntry log k s).or (newestEntry tables k s) :=
    Newest.newest_append_of_covers (fun x hx y hy hxk hyk => hcov x hx y hy (hxk.trans hyk.symm)) hu
  rw [visible, h, visible, visible]
  cases newestEntry log k s <;> simp

theorem newestEntry_max_eq_none {es : List Entry} {k : Bytes} :
    newestEntry es k uint64Max = none ↔ ∀ e ∈ es, e.key ≠ k :=
  Newest.newest_eq_none_iff.trans
    ⟨fun h e he hk => h e he hk (le_uint64Max e.seq), fun h e he hk => absurd hk (h e he)⟩

theorem Ready.covers {log : List Entry} {ver : Version} (h : Ready log ver) :
    Covers log (ver.allFiles.flatMap FileMeta.contents) := by
  intro x hx y hy hk
  obtain ⟨f, hf, hy⟩ := List.mem_flatMap.1 hy
  exact h.onTop f hf x hx y hy hk

/-- With `log` in the place of its own log the store would show the same. -/
structure DB.Agrees (db : DB) (log : List Entry) : Prop where
  ready : Ready log db.version
  memory : ∀ e ∈ db.memtable.entries, e ∈ log
  shown : ∀ e ∈ log, visible log e.key uint64Max = db.contents e.key
  lt : ∀ e ∈ log, e.seq < uint64Max

/-- Its own log. -/
theorem DB.Steady.agrees {db : DB} (h : db.Steady) : db.Agrees db.memtable.entries where
  ready := h.ready
  memory := fun _ he => he
  shown := by
    intro e he
    have hne : newestEntry db.memtable.entries e.key uint64Max ≠ none := fun hnone =>
      newestEntry_max_eq_none.1 hnone e he rfl
    exact ((visible_append_of_covers h.ready.covers h.unique e.key uint64Max).trans
      (if_neg hne)).symm
  lt := fun e he => lt_of_lt_of_le (h.seqs.entries_lt e (List.mem_append_left _ he)) (le_uint64Max _)

namespace DB.Agrees

variable {db db' : DB} {log log' : List Entry}

theorem of_perm (h : db.Agrees log) (hp : log'.Perm log) : db.Agrees log' where
  ready := h.ready.of_perm hp
  memory := fun e he => hp.mem_iff.2 (h.memory e he)
  shown := by
    intro e he
    have hu : UniqueSeqs log := h.ready.unique.subset fun _ he => List.mem_append_left _ he
    rw [← h.shown e (hp.mem_iff.1 he)]
    exact (visible_congr hu (fun _ => hp.mem_iff.symm) _ _).symm
  lt := fun e he => h.lt e (hp.mem_iff.1 he)

/-- What an open would show with this log. -/
theorem contents (h : db.Agrees log) (hs : db.Steady) (k : Bytes) :
    visible (log ++ db.version.allFiles.flatMap FileMeta.contents) k uint64Max = db.contents k := by
  rw [visible_append_of_covers h.ready.covers h.ready.unique]
  split
  · rename_i hnone
    have hmem : newestEntry db.memtable.entries k uint64Max = none :=
      newestEntry_max_eq_none.2 fun e he => newestEntry_max_eq_none.1 hnone e (h.memory e he)
    exact ((visible_append_of_covers hs.ready.covers hs.unique k uint64Max).trans (if_pos hmem)).symm
  · rename_i hne
    obtain ⟨e, he⟩ := Option.ne_none_iff_exists'.1 hne
    have hnew := Newest.isNewest_of_newest he
    rw [← hnew.key_eq]
    exact h.shown e hnew.mem

/-- Every step but the append of a batch leaves it a log that shows the same. -/
theorem step (h : db.Agrees log) (hs : db.Steady) {ev : Event} (hok : ExactOk db ev)
    (hread : db.Within ev) (hev : ∀ coins, ev ≠ .apply coins)
    (hstep : db.step ev = some db') : db'.Agrees log := by
  obtain ⟨hs', hsame, -⟩ := hs.step_or_reopen hok hread hev hstep
  have hshown : ∀ e ∈ log, visible log e.key uint64Max = db'.contents e.key := fun e he =>
    (h.shown e he).trans (congrFun hsame.symm e.key)
  cases DB.step_kind hstep with
  | assign reqs hev' hstep' =>
    obtain ⟨-, -, rfl⟩ := DB.assign_inv hstep'
    exact ⟨h.ready, h.memory, hshown, h.lt⟩
  | apply coins hev' hstep' => exact absurd hev' (hev coins)
  | flush hev' hnew hflush =>
    have hfit := hread.tables.of_new hnew
    refine ⟨hs.ready_flush h.ready h.memory hs'.ready.whole hfit hflush, fun e he => ?_, hshown, h.lt⟩
    rcases DB.flush_inv hs.wellFormed.stored hfit hflush with ⟨-, rfl⟩ | ⟨-, fm, -, -, -, -, rfl⟩
    · exact h.memory e he
    · rw [show Memtable.fresh.entries = [] from Memtable.entries_fresh] at he
      exact absurd he List.not_mem_nil
  | commit hev' hstep' =>
    subst hev'
    refine ⟨hs.ready_commit h.ready hok.toOrderOk hstep', fun e he => h.memory e ?_, hshown, h.lt⟩
    obtain ⟨job, outputs, -, ⟨-, rfl⟩ | ⟨-, rfl⟩⟩ := DB.commit_inv hstep'
    · exact he
    · exact he
  | reopen opts coins hev' hstep' =>
    obtain ⟨-, -, -, -, hopen⟩ := DB.reopen_inv hstep'
    obtain ⟨records, hp, hR⟩ := hs.durable.recoverable
    have ho := hR.opened hopen
    exact ⟨h.ready.reordered hR ho, fun e he => h.memory e ((ho.mem.trans hp.symm).mem_iff.1 he),
      hshown, h.lt⟩
  | quiet hev' mem ver inflight seq => exact ⟨ver ▸ h.ready, mem ▸ h.memory, hshown, h.lt⟩

end DB.Agrees

/-! ## What the next process finds -/

/-- The log is read as these records. -/
def LogHolds (wal : Option Bytes) (records : List Wal.Record) : Prop :=
  (∃ tail, wal = some (records.flatMap Wal.encodeRecord ++ tail) ∧ Wal.replay wal = records) ∧
    ∀ r ∈ records, r.Fits

/-- Numbers that the open of a directory can take. -/
def Listable (sst : List (Nat × Bytes)) : Prop :=
  (sst.map Prod.fst).Nodup ∧ ∀ p ∈ sst, p.1 < 2 ^ 31 - 1

/-- The next process finds `s`. -/
def Dir.Finds (dir : Dir) (s : Contents) : Prop :=
  dir.wal.isSome = true ∧ dir.manifest ≠ none ∧ ∃ ver log, dir.Keeps ver log ∧ Ready log ver ∧
    (∀ k, visible (log ++ ver.allFiles.flatMap FileMeta.contents) k uint64Max = s k) ∧
    ∀ e ∈ log ++ ver.allFiles.flatMap FileMeta.contents, e.seq < uint64Max

theorem Recoverable.logHolds {dir : Dir} {records : List Wal.Record} {ver : Version}
    (h : Recoverable dir records ver) (hwal : dir.wal.isSome = true) : LogHolds dir.wal records := by
  refine ⟨h.wal.resolve_left fun hc => ?_, h.fits⟩
  rw [hc.1] at hwal
  exact nomatch hwal

theorem Recoverable.listable {dir : Dir} {records : List Wal.Record} {ver : Version}
    (h : Recoverable dir records ver) : Listable dir.sst := ⟨h.sst_nodup, h.sst_lt⟩

theorem Recoverable.lose {dir : Dir} {records records' : List Wal.Record} {ver : Version}
    (h : Recoverable dir records ver) (hman : dir.manifest ≠ none) {wal : Option Bytes}
    (hwal : LogHolds wal records') {sst : List (Nat × Bytes)} (hsst : Listable sst) (q : LossPoint) :
    Recoverable (dir.lose wal sst q) records' ver := by
  have hrev : ∀ p ∈ dir.revived sst q.revived, p ∈ sst ∧ p.1 ∉ dir.sst.map Prod.fst := fun p hp =>
    ⟨(List.mem_filter.1 hp).1, (of_decide_eq_true (List.mem_filter.1 hp).2).2⟩
  refine { h with
    wal := Or.inr hwal.1, fits := hwal.2
    manifest := Or.inr (h.manifest.resolve_left fun hc => hman hc.1)
    sst_nodup := ?_
    sst_lt := fun p hp => (List.mem_append.1 hp).elim (h.sst_lt p) fun hp => hsst.2 p (hrev p hp).1
    onDisk := fun fm hfm => List.mem_append_left _ (h.onDisk fm hfm) }
  show ((dir.sst ++ dir.revived sst q.revived).map Prod.fst).Nodup
  rw [List.map_append, List.nodup_append]
  refine ⟨h.sst_nodup, hsst.1.sublist (List.filter_sublist.map Prod.fst), fun n hn m hm he => ?_⟩
  obtain ⟨p, hp, rfl⟩ := List.mem_map.1 hm
  exact (hrev p hp).2 (he ▸ hn)

/-- Once there, `wal.log` and `MANIFEST` stay. -/
theorem exists_exec {dir : Dir} (h : dir.wal.isSome = true ∧ dir.manifest ≠ none) (op : DiskOp) :
    (dir.exec op).wal.isSome = true ∧ (dir.exec op).manifest ≠ none := by
  cases op with
  | resizeWal size => exact ⟨by rw [Dir.exec, Option.isSome_map]; exact h.1, h.2⟩
  | appendManifest snapshot => exact ⟨h.1, by simp [Dir.exec, Manifest.appendSnapshot]⟩
  | openManifest => exact ⟨h.1, by simp [Dir.exec]⟩
  | appendWal records => exact ⟨rfl, h.2⟩
  | openWal => exact ⟨rfl, h.2⟩
  | _ => exact h

theorem exists_execAll {dir : Dir} (h : dir.wal.isSome = true ∧ dir.manifest ≠ none)
    (ops : List DiskOp) :
    (dir.execAll ops).wal.isSome = true ∧ (dir.execAll ops).manifest ≠ none := by
  induction ops generalizing dir with
  | nil => exact h
  | cons op ops ih => exact ih (exists_exec h op)

theorem exists_crashIn {dir : Dir} (h : dir.wal.isSome = true ∧ dir.manifest ≠ none)
    (ops : List DiskOp) (done cut : Nat) :
    (dir.crashIn ops done cut).wal.isSome = true ∧ (dir.crashIn ops done cut).manifest ≠ none := by
  have hall := exists_execAll h (ops.take done)
  unfold Dir.crashIn
  split
  · exact ⟨rfl, hall.2⟩
  · exact hall

/-- **What a loss leaves**: the operations that are through, with a log that may be older. -/
theorem lossIn_inv {dir d : Dir} {v : Volatile} {ops : List DiskOp} {q : LossPoint}
    (h : dir.lossIn v ops q = some d) : ∃ wal,
      (wal = (dir.crashIn ops (q.synced + q.reached.toNat) q.cut).wal ∨
        wal ∈ (v.execAll dir (ops.take q.synced)).logs) ∧
      d = (dir.crashIn ops (q.synced + q.reached.toNat) q.cut).lose wal
        (v.execAll dir (ops.take q.synced)).sst q := by
  unfold Dir.lossIn at h
  split at h
  · exact ⟨_, Or.inl rfl, (Option.some.inj h).symm⟩
  · obtain ⟨wal, hwal, rfl⟩ := Option.map_eq_some_iff.1 h
    exact ⟨wal, Or.inr (List.mem_of_getElem? hwal), rfl⟩

/-- A log that may come back. -/
def DB.Tolerates (db : DB) (wal : Option Bytes) : Prop :=
  ∃ records, LogHolds wal records ∧ db.Agrees (records.map Wal.Record.entry)

/-- **The next process finds what the store shows**, with a log that it tolerates. -/
theorem DB.Tolerates.finds {db : DB} {wal : Option Bytes} (h : db.Tolerates wal) (hs : db.Steady)
    {dir : Dir} (hman : dir.manifest ≠ none) {log : List Entry} (hk : dir.Keeps db.version log)
    {sst : List (Nat × Bytes)} (hsst : Listable sst) (q : LossPoint) :
    (dir.lose wal sst q).Finds db.contents := by
  obtain ⟨records, hholds, ha⟩ := h
  obtain ⟨_, -, hR⟩ := hk
  refine ⟨?_, hman, db.version, _, ⟨records, List.Perm.refl _, hR.lose hman hholds hsst q⟩, ha.ready,
    ha.contents hs, fun e he => ?_⟩
  · obtain ⟨⟨tail, rfl, -⟩, -⟩ := hholds
    rfl
  · rcases List.mem_append.1 he with he | he
    · exact ha.lt e he
    · exact lt_of_lt_of_le (hs.seqs.entries_lt e (List.mem_append_right _ he)) (le_uint64Max _)

namespace Dir.Finds

variable {dir d : Dir} {s : Contents}

/-- **A loss in the open** takes nothing away. -/
theorem lossOpen (h : dir.Finds s) {q : LossPoint} (hloss : dir.lossOpen q = some d) :
    d.Finds s := by
  obtain ⟨hwal, hman, ver, log, ⟨records, hp, hR⟩, hready, hshown, hlt⟩ := h
  obtain ⟨wal, hchoice, rfl⟩ := lossIn_inv hloss
  have hex := exists_crashIn ⟨hwal, hman⟩ (DB.openOps dir) (q.synced + q.reached.toNat) q.cut
  have hfound : Recoverable (dir.crashIn (DB.openOps dir) (q.synced + q.reached.toNat) q.cut)
      records ver := by
    rw [crashIn_eq fun op hop => openOps_not_append hop]
    exact hR.crashOpen _
  -- whichever log it is, it is read as the same records
  have hholds : LogHolds wal records := by
    rcases hchoice with rfl | hmem
    · exact hfound.logHolds hex.1
    · have hcases := logs_cutsOnce (cutsOnce_openOps hwal) _ hwal
        (Nat.le_add_right q.synced q.reached.toNat) hmem
      rw [← crashIn_eq (fun op hop => openOps_not_append hop) dir _ q.cut] at hcases
      rcases hcases with hmem | rfl | rfl
      · exact List.mem_singleton.1 hmem ▸ hR.logHolds hwal
      · exact hR.logHolds hwal
      · exact hfound.logHolds hex.1
  have hsst : Listable ((Volatile.start dir).execAll dir ((DB.openOps dir).take q.synced)).sst := by
    rw [listed_of_no_install fun n file hmem => openOps_not_install (List.mem_of_mem_take hmem)]
    exact hR.listable
  have hsome : wal.isSome = true := by
    obtain ⟨⟨tail, rfl, -⟩, -⟩ := hholds
    rfl
  exact ⟨hsome, hex.2, ver, log, ⟨records, hp, hfound.lose hex.2 hholds hsst q⟩, hready, hshown, hlt⟩

theorem lossOpens (h : dir.Finds s) {opens : List LossPoint}
    (hloss : opens.foldlM Dir.lossOpen dir = some d) : d.Finds s := by
  induction opens generalizing dir with
  | nil => exact Option.some.inj hloss ▸ h
  | cons q opens ih =>
    obtain ⟨d', hd', hrest⟩ := Option.bind_eq_some_iff.1 hloss
    exact ih (h.lossOpen hd') hrest

theorem exists_open (h : dir.Finds s) (opts : Options) (coins : List (List Bool)) :
    ∃ db, DB.open opts coins dir = .ok db := by
  obtain ⟨-, -, ver, log, ⟨records, hp, hR⟩, -⟩ := h
  obtain ⟨db, hdb, -⟩ := hR.openable.open_spec opts coins
  exact ⟨db, hdb⟩

end Dir.Finds

/-! ## The invariant -/

/-- Whatever the loss of power brings back, the store shows the same. -/
structure Powered.Ok (p : Powered) : Prop where
  steady : p.db.Steady
  logs : ∀ w ∈ p.disk.logs, p.db.Tolerates w
  listed : Listable p.disk.sst

theorem DB.Steady.exists_files {db : DB} (h : db.Steady) :
    db.dir.wal.isSome = true ∧ db.dir.manifest ≠ none := by
  refine ⟨h.wellFormed.stored.wal, ?_⟩
  obtain ⟨snaps, files, hm, -⟩ := h.durable.manifest
  rw [hm]
  nofun

/-- A store agrees with the log it has on disk. -/
theorem DB.Steady.tolerates {db : DB} (h : db.Steady) : db.Tolerates db.dir.wal := by
  obtain ⟨records, hp, hR⟩ := h.durable.recoverable
  exact ⟨records, hR.logHolds h.exists_files.1, h.agrees.of_perm hp.symm⟩

theorem DB.Steady.listable {db : DB} (h : db.Steady) : Listable db.dir.sst := by
  obtain ⟨records, -, hR⟩ := h.durable.recoverable
  exact hR.listable

/-- **The open behind a loss.** -/
theorem Dir.Finds.opened {dir : Dir} {s : Contents} (h : dir.Finds s) {opts : Options}
    {coins : List (List Bool)} {db : DB} (hopen : DB.open opts coins dir = .ok db) :
    (⟨db, (Volatile.start dir).execAll dir (DB.openOps dir)⟩ : Powered).Ok ∧ db.contents = s ∧
      db.inflight = [] := by
  obtain ⟨hwal, -, ver, log, ⟨records, hp, hR⟩, hready, hshown, hlt⟩ := h
  have hrec := DB.Steady.of_open ⟨records, hp, hR⟩ hready (fun _ => Iff.rfl) hlt hopen
  have ho := hR.opened hopen
  refine ⟨⟨hrec.steady, fun w hw => ?_, ?_⟩, hrec.contents.trans (funext hshown), hrec.idle.2.1⟩
  · have hfirst : db.Tolerates dir.wal :=
      ⟨records, hR.logHolds hwal, hrec.steady.agrees.of_perm ho.mem.symm⟩
    rw [← List.take_length (l := DB.openOps dir)] at hw
    have hcases := logs_cutsOnce (cutsOnce_openOps hwal) _ hwal (le_refl _) hw
    rw [List.take_length, ← ho.dir_eq] at hcases
    rcases hcases with hw | rfl | rfl
    · exact List.mem_singleton.1 hw ▸ hfirst
    · exact hfirst
    · exact hrec.steady.tolerates
  · show Listable ((Volatile.start dir).execAll dir (DB.openOps dir)).sst
    rw [listed_of_no_install fun n file hmem => openOps_not_install hmem]
    exact hR.listable

theorem DB.Tolerates.step {db db' : DB} {wal : Option Bytes} (h : db.Tolerates wal) (hs : db.Steady)
    {ev : Event} (hok : ExactOk db ev) (hread : db.Within ev)
    (hev : ∀ coins, ev ≠ .apply coins) (hstep : db.step ev = some db') : db'.Tolerates wal := by
  obtain ⟨records, hholds, ha⟩ := h
  exact ⟨records, hholds, ha.step hs hok hread hev hstep⟩

namespace Powered.Ok

variable {p : Powered} {db' : DB} {ev : Event}

/-- A step of the engine. -/
theorem step (h : p.Ok) (hok : ExactOk p.db ev) (hread : p.db.Within ev)
    (hstep : p.db.step ev = some db') :
    (⟨db', p.disk.execAll p.db.dir (p.db.diskOps ev)⟩ : Powered).Ok := by
  have hdir := DB.step_dir hstep
  have hlisted : db'.Steady → Listable (p.disk.execAll p.db.dir (p.db.diskOps ev)).sst := by
    intro hs
    have hcases := listed_step hstep p.disk (p.db.diskOps ev).length
    rw [List.take_length] at hcases
    rcases hcases with he | he <;> rw [he]
    · exact h.listed
    · exact hs.listable
  by_cases hev : ∀ coins, ev ≠ .apply coins
  · obtain ⟨hs, -, -⟩ := h.steady.step_or_reopen hok hread hev hstep
    refine ⟨hs, fun w hw => ?_, hlisted hs⟩
    have hstays : p.db.Tolerates w → db'.Tolerates w := fun ht =>
      ht.step h.steady hok hread hev hstep
    have hwal := h.steady.exists_files.1
    rw [← List.take_length (l := p.db.diskOps ev)] at hw
    have hcases := logs_cutsOnce (cutsOnce_diskOps hwal hev) _ hwal (le_refl _) hw
    rw [List.take_length, ← hdir] at hcases
    rcases hcases with hw | rfl | rfl
    · exact hstays (h.logs w hw)
    · exact hstays h.steady.tolerates
    · exact hs.tolerates
  · -- the append is synced
    simp only [not_forall, not_not] at hev
    obtain ⟨coins, rfl⟩ := hev
    have hs := h.steady.step hok hread (by simp) hstep
    refine ⟨hs, fun w hw => ?_, hlisted hs⟩
    obtain rfl : w = db'.dir.wal := by
      rw [hdir]
      exact List.mem_singleton.1 hw
    exact hs.tolerates

/-- **A loss outside the append of a batch.** -/
theorem lossIn (h : p.Ok) (hok : ExactOk p.db ev) (hread : p.db.Within ev)
    (hev : ∀ coins, ev ≠ .apply coins) (hstep : p.db.step ev = some db') {q : LossPoint} {d : Dir}
    (hloss : p.db.dir.lossIn p.disk (p.db.diskOps ev) q = some d) : d.Finds p.db.contents := by
  obtain ⟨hs', hsame, -⟩ := h.steady.step_or_reopen hok hread hev hstep
  obtain ⟨wal, hchoice, rfl⟩ := lossIn_inv hloss
  have hwal := h.steady.exists_files.1
  have hex := exists_crashIn h.steady.exists_files (p.db.diskOps ev) (q.synced + q.reached.toNat) q.cut
  have hkeeps := h.steady.durable.crashIn_keeps hread hev hstep (q.synced + q.reached.toNat) q.cut
  have hsst : Listable (p.disk.execAll p.db.dir ((p.db.diskOps ev).take q.synced)).sst := by
    rcases listed_step hstep p.disk q.synced with he | he <;> rw [he]
    · exact h.listed
    · exact hs'.listable
  -- the log is one from before the step, or the one that is there
  have hcases : p.db.Tolerates wal ∨
      wal = (p.db.dir.crashIn (p.db.diskOps ev) (q.synced + q.reached.toNat) q.cut).wal := by
    rcases hchoice with he | hmem
    · exact Or.inr he
    · have hcases := logs_cutsOnce (cutsOnce_diskOps hwal hev) _ hwal
        (Nat.le_add_right q.synced q.reached.toNat) hmem
      rw [← crashIn_eq (fun op hop => diskOps_not_append hev hop) p.db.dir _ q.cut] at hcases
      rcases hcases with hmem | rfl | he
      · exact Or.inl (h.logs wal hmem)
      · exact Or.inl h.steady.tolerates
      · exact Or.inr he
  generalize p.db.dir.crashIn (p.db.diskOps ev) (q.synced + q.reached.toNat) q.cut = found at *
  have hlog : ∀ db₁ : DB, (p.db.Tolerates wal → db₁.Tolerates wal) → ∀ log, db₁.Agrees log →
      found.Keeps db₁.version log → db₁.Tolerates wal := by
    intro db₁ hstays log ha hk
    rcases hcases with ht | rfl
    · exact hstays ht
    · obtain ⟨records, hp, hR⟩ := hk
      exact ⟨records, hR.logHolds hex.1, ha.of_perm hp.symm⟩
  have hafter : p.db.Tolerates wal → db'.Tolerates wal := fun ht =>
    ht.step h.steady hok hread hev hstep
  rcases hkeeps with hk | ⟨-, -, hk⟩ | hk
  · exact (hlog p.db (fun ht => ht) _ h.steady.agrees hk).finds h.steady hex.2 hk hsst q
  · rw [← hsame]
    exact (hlog db' hafter _ (h.steady.agrees.step h.steady hok hread hev hstep) hk).finds hs' hex.2
      hk hsst q
  · rw [← hsame]
    exact (hlog db' hafter _ hs'.agrees hk).finds hs' hex.2 hk hsst q

/-- **A loss in the append of a batch** keeps some of its first writes, and all of them once the
    append is synced. -/
theorem lossIn_apply (h : p.Ok) {q : LossPoint} {d : Dir}
    (hloss : p.db.dir.lossIn p.disk [.appendWal p.db.inflight] q = some d) :
    ∃ kept, kept <+: p.db.inflight ∧ (q.synced ≠ 0 → kept = p.db.inflight) ∧
      d.Finds fun k => valueAfter k (p.db.contents k) (kept.map Wal.Record.entry) := by
  obtain ⟨wal, hchoice, rfl⟩ := lossIn_inv hloss
  have hex := exists_crashIn h.steady.exists_files [.appendWal p.db.inflight]
    (q.synced + q.reached.toNat) q.cut
  obtain ⟨kept, hkept, hdone, hk⟩ := h.steady.durable.crashIn_apply_keeps
    (q.synced + q.reached.toNat) q.cut
  have hsst : Listable (p.disk.execAll p.db.dir
      (([.appendWal p.db.inflight] : List DiskOp).take q.synced)).sst := by
    rw [listed_of_no_install fun n file hmem => by simpa using List.mem_of_mem_take hmem]
    exact h.listed
  -- an older log is there only while the append is not synced
  have hcases : (q.synced = 0 ∧ wal ∈ p.disk.logs) ∨ wal = (p.db.dir.crashIn
      [.appendWal p.db.inflight] (q.synced + q.reached.toNat) q.cut).wal := by
    rcases hchoice with he | hmem
    · exact Or.inr he
    · cases hsync : q.synced with
      | zero =>
        rw [hsync] at hmem
        exact Or.inl ⟨rfl, hmem⟩
      | succ n =>
        rw [hsync, List.take_succ_cons, List.take_nil] at hmem
        rw [List.mem_singleton.1 hmem, show n + 1 + q.reached.toNat = (n + q.reached.toNat) + 1 by omega]
        obtain ⟨b, -, hall, he⟩ := crashIn_apply p.db.dir p.db.inflight (n + q.reached.toNat + 1) q.cut
        rw [he, hall (Nat.succ_ne_zero _)]
        exact Or.inr rfl
  rcases hcases with ⟨hsync, hmem⟩ | rfl
  · exact ⟨[], List.nil_prefix, fun hne => absurd hsync hne,
      (h.logs wal hmem).finds h.steady hex.2 hk hsst q⟩
  · obtain ⟨hready, hshown, hlt⟩ := h.steady.kept hkept
    obtain ⟨records, hp, hR⟩ := hk
    refine ⟨kept, hkept, fun hne => hdone (by omega), hex.1, hex.2, p.db.version, _,
      ⟨records, hp, hR.lose hex.2 (hR.logHolds hex.1) hsst q⟩, hready, fun k => ?_, fun e he => ?_⟩
    · rw [List.append_assoc]
      exact hshown k
    · rw [List.append_assoc] at he
      exact lt_of_lt_of_le (hlt e he) (le_uint64Max _)

end Powered.Ok

/-! ## Refinement -/

/-- What a loss is to the abstract store. -/
def LossAt.crash (c : LossAt) : CrashAt :=
  ⟨c.ev, c.point.synced, c.point.cut, [], c.opts, c.coins⟩

def PowerEvent.life : PowerEvent → LifeEvent
  | .run ev => .run ev
  | .loss c => .crash c.crash

/-- What a step needs, as without losses. -/
def PowerOk (p : Powered) (e : PowerEvent) : Prop := LimitsOk p.db e.life ∧ StaysExact p.db e.life

instance (p : Powered) (e : PowerEvent) : Decidable (PowerOk p e) :=
  inferInstanceAs (Decidable (_ ∧ _))

namespace Powered.Ok

variable {p p' : Powered}

/-- What the last open finds, for the abstract store. -/
theorem lossDir (h : p.Ok) {l : Ledger} (hl : p.db.Refines l) {c : LossAt}
    (hok : PowerOk p (.loss c)) {db₁ : DB} (hstep : p.db.step c.ev = some db₁) {d : Dir}
    (hloss : p.lossDir c = some d) : ∃ s, d.Finds s ∧ l.Crashes c.crash ⟨s, []⟩ := by
  obtain ⟨d₁, hd₁, hopens⟩ := Option.bind_eq_some_iff.1 hloss
  have hfirst : ∃ s, d₁.Finds s ∧ l.Crashes c.crash ⟨s, []⟩ := by
    unfold Ledger.Crashes
    split
    · rename_i coins hev
      have hops : p.db.diskOps c.ev = [.appendWal p.db.inflight] :=
        congrArg p.db.diskOps (show c.ev = .apply coins from hev)
      rw [hops] at hd₁
      obtain ⟨kept, hkept, hsync, hfinds⟩ := h.lossIn_apply hd₁
      refine ⟨_, hfinds, kept.map Wal.Record.op, hl.pending ▸ hkept.map _, fun hd => ?_,
        congrArg (Ledger.mk · []) (funext fun k => ?_)⟩
      · rw [hsync hd, hl.pending]
      · rw [← hl.durable]
        exact p.db.contents.writeAll_records kept k
    · rename_i hev
      refine ⟨_, h.lossIn hok.2 hok.1 hev hstep hd₁, ?_⟩
      rw [hl.durable]
  obtain ⟨s, hfinds, hcrash⟩ := hfirst
  exact ⟨s, hfinds.lossOpens hopens, hcrash⟩

/-- **A loss** is one of the abstract store. -/
theorem loss (h : p.Ok) {l : Ledger} (hl : p.db.Refines l) {c : LossAt}
    (hok : PowerOk p (.loss c)) (hstep : p.loss c = some p') :
    ∃ l', l.Crashes c.crash l' ∧ p'.Ok ∧ p'.db.Refines l' := by
  unfold Powered.loss at hstep
  split at hstep
  · rename_i hsome
    obtain ⟨db₁, hdb₁⟩ := Option.isSome_iff_exists.1 hsome
    obtain ⟨d, hd, hstep⟩ := Option.bind_eq_some_iff.1 hstep
    obtain ⟨db, hdb, rfl⟩ := Option.map_eq_some_iff.1 hstep
    obtain ⟨s, hfinds, hcrash⟩ := h.lossDir hl hok hdb₁ hd
    obtain ⟨hopened, hcont, hinf⟩ := hfinds.opened (eq_ok_of_toOption hdb)
    exact ⟨_, hcrash, hopened, hopened.steady, hcont, by rw [hinf]; rfl⟩
  · exact nomatch hstep

/-- **Every event** is one of the abstract store. -/
theorem event (h : p.Ok) {l : Ledger} (hl : p.db.Refines l) {e : PowerEvent} (hok : PowerOk p e)
    (hstep : p.step e = some p') : ∃ l', l.Next e.life l' ∧ p'.Ok ∧ p'.db.Refines l' := by
  cases e with
  | loss c => exact h.loss hl hok hstep
  | run ev =>
    obtain ⟨db', hdb', rfl⟩ := Option.map_eq_some_iff.1 hstep
    obtain ⟨l', hnext, hl'⟩ := hl.live hok hdb'
    refine ⟨l', hnext, ?_, hl'⟩
    exact h.step hok.2 hok.1 hdb'

end Powered.Ok

theorem Powered.ok_create (opts : Options) : (Powered.create opts).Ok where
  steady := .create opts
  logs := fun _ hw => List.mem_singleton.1 hw ▸ (DB.Steady.create opts).tolerates
  listed := (DB.Steady.create opts).listable

/-- **Reads across losses of power.** Every run of calls, engine steps, reopens and losses of
    power whose steps are within the limits and meet `ExactOk` follows the abstract store: what is
    durable changes only when a batch is applied, all of it, or in a loss before the batch is
    synced, by some of its first writes. In every state `get` and `scan` return what is durable;
    and whatever a loss leaves on the disk, the next open succeeds. -/
theorem power_reads {opts : Options} {evs : List PowerEvent} {p : Powered}
    (hok : Steps.Meets Powered.step PowerOk (Powered.create opts) evs)
    (hrun : Steps.run Powered.step (Powered.create opts) evs = some p) :
    (∃ l, Steps.Leads (fun l e => Ledger.Next l (PowerEvent.life e)) ⟨fun _ => none, []⟩ evs l ∧
      p.db.inflight.map Wal.Record.op = l.pending ∧
      (∀ k, p.db.get k = .ok (l.durable k)) ∧
      ∀ pq start last, ∃ out, p.db.scan pq start last = .ok out ∧
        l.durable.Lists start last out) ∧
    ∀ c dir, PowerOk p (.loss c) → (p.db.step c.ev).isSome = true → p.lossDir c = some dir →
      ∃ db, DB.open c.opts c.coins dir = .ok db := by
  obtain ⟨l, hl, h, hrefines⟩ := @Steps.run_simulates _ _ Powered.step _ _ p evs _
    (fun l e => Ledger.Next l (PowerEvent.life e)) (fun p l => p.Ok ∧ p.db.Refines l)
    (fun _ _ _ _ h hP hs => h.1.event h.2 hP hs) _ ⟨Powered.ok_create opts, DB.refines_create opts⟩
    hok hrun
  refine ⟨⟨l, hl, hrefines.pending, hrefines.get, hrefines.scan⟩, fun c dir hc hstep hdir => ?_⟩
  obtain ⟨db₁, hdb₁⟩ := Option.isSome_iff_exists.1 hstep
  obtain ⟨s, hfinds, -⟩ := h.lossDir hrefines hc hdb₁ hdir
  exact hfinds.exists_open c.opts c.coins

/-- A put is flushed and both are merged into one table; the power is lost before the truncation
    of the log and the removal of the merged tables have reached the disk, and again in the open. -/
def revivedRun : List PowerEvent :=
  [.run (.assign [.put [1] [1]]), .run (.apply []), .run .flush,
    .run (.assign [.put [1] [2]]), .run (.apply []), .run .flush,
    .run .compactCall, .run (.pick plainQueue), .run .startWriter,
    .run .finishWriter, .run .commit, .run (.unlink 1), .run (.unlink 2),
    .loss ⟨.getSnapshot, ⟨0, false, 0, some 0, [1, 2], [7]⟩, [⟨1, true, 0, some 0, [2], []⟩], {}, []⟩]

theorem power_reads_revived : ∃ (p : Powered) (l : Ledger),
    Steps.run Powered.step (Powered.create {}) revivedRun = some p ∧
    p.db.memtable.entries.length = 1 ∧ (∀ k, p.db.get k = .ok (l.durable k)) ∧
    l.durable [1] = some [2] := by
  have hok : Steps.Meets Powered.step PowerOk (Powered.create {}) revivedRun := by decide +kernel
  have hlast : ((Steps.run Powered.step (Powered.create {}) revivedRun).any fun p =>
      decide (p.db.memtable.entries.length = 1) &&
        decide ((p.db.get [1]).toOption = some (some [2]))) = true := by
    decide +kernel
  obtain ⟨p, hrun, hlast⟩ := (Option.any_eq_true _ _).1 hlast
  rw [Bool.and_eq_true, decide_eq_true_eq, decide_eq_true_eq] at hlast
  obtain ⟨⟨l, -, -, hreads, -⟩, -⟩ := power_reads hok hrun
  refine ⟨p, l, hrun, hlast.1, hreads, ?_⟩
  exact Except.ok.inj ((hreads [1]).symm.trans (eq_ok_of_toOption hlast.2))

end Keystone
