/-
  What each step of the engine does, from any state.

  One inversion lemma for each event: the guard of the step and the state it leads to. `DB.Frame`
  says for each part of the state which events change it.
-/
import Keystone.Engine

namespace Keystone

theorem eq_ok_of_toOption {α ε : Type} {x : Except ε α} {a : α} (h : x.toOption = some a) :
    x = .ok a := by
  cases x with
  | error e => simp [Except.toOption] at h
  | ok b => exact congrArg Except.ok (Option.some.inj h)

namespace DB

variable {db db' : DB}

theorem assign_inv {ops : List Op} (h : db.assign ops = some db') :
    db.inflight = [] ∧ ops ≠ [] ∧
      db' = { db with
        inflight := batchRecords db.nextSeq ops
        nextSeq := db.nextSeq + UInt64.ofNat ops.length } := by
  unfold assign at h
  split at h
  · rename_i hc
    exact ⟨hc.1, hc.2, (Option.some.inj h).symm⟩
  · simp at h

theorem apply_inv {coins : List (List Bool)} (h : db.apply coins = some db') :
    db.inflight ≠ [] ∧
      db' = { db with
        dir := { db.dir with wal := some (Wal.appendBatch (db.dir.wal.getD []) db.inflight) }
        memtable := db.memtable.applyAll db.inflight coins
        inflight := [] } := by
  unfold apply at h
  split at h
  · rename_i hc
    exact ⟨hc, (Option.some.inj h).symm⟩
  · simp at h

theorem allocSst_inv {number : Nat} (h : db.allocSst = some (number, db')) :
    db.nextSst < 2 ^ 31 - 1 ∧ number = db.nextSst ∧ db' = { db with nextSst := db.nextSst + 1 } := by
  unfold allocSst at h
  split at h
  · rename_i hc
    simp only [Option.some.injEq, Prod.mk.injEq] at h
    exact ⟨hc, h.1.symm, h.2.symm⟩
  · simp at h

/-- A flush of an empty memtable does nothing; any other makes a file of its entries. -/
theorem flush_shape (h : db.flush = some db') :
    (db.memtable.approxBytes = 0 ∧ db' = db) ∨
    (db.memtable.approxBytes ≠ 0 ∧ db.nextSst < 2 ^ 31 - 1 ∧ ∃ file fm,
      buildTable db.nextSst 0 db.memtable.entries = some (file, fm) ∧ db' = { db with
        nextSst := db.nextSst + 1
        dir := db.dir.execAll (flushOps db.nextSst file (db.version.pushL0 fm))
        version := db.version.pushL0 fm
        memtable := .fresh
        compactionPending := db.compactionPending ||
          (db.opts.compactionTrigger.toNat ≤ ((db.version.pushL0 fm).files 0).length &&
            db.job.isNone) }) := by
  unfold flush at h
  split at h
  · rename_i hz
    exact Or.inl ⟨hz, (Option.some.inj h).symm⟩
  · rename_i hz
    obtain ⟨⟨number, db1⟩, halloc, h⟩ := Option.bind_eq_some_iff.1 h
    obtain ⟨hlt, rfl, rfl⟩ := allocSst_inv halloc
    obtain ⟨⟨file, fm⟩, hbuild, h⟩ := Option.bind_eq_some_iff.1 h
    exact Or.inr ⟨hz, hlt, file, fm, hbuild, (Option.some.inj h).symm⟩

/-- A flush that has a number left and a table that can be built. -/
theorem flush_eq {file : Bytes} {fm : FileMeta} (hne : db.memtable.approxBytes ≠ 0)
    (hlt : db.nextSst < 2 ^ 31 - 1)
    (hbuild : buildTable db.nextSst 0 db.memtable.entries = some (file, fm)) :
    db.flush = some { db with
      nextSst := db.nextSst + 1
      dir := db.dir.execAll (flushOps db.nextSst file (db.version.pushL0 fm))
      version := db.version.pushL0 fm
      memtable := .fresh
      compactionPending := db.compactionPending ||
        (db.opts.compactionTrigger.toNat ≤ ((db.version.pushL0 fm).files 0).length &&
          db.job.isNone) } := by
  unfold flush allocSst
  rw [if_neg hne, if_pos hlt]
  simp only [Option.bind_eq_bind, Option.bind_some, hbuild]

theorem maybeFlush_inv (h : db.maybeFlush = some db') :
    (db.opts.flushThresholdBytes.toNat ≤ db.memtable.approxBytes ∧ db.flush = some db') ∨
      (¬ db.opts.flushThresholdBytes.toNat ≤ db.memtable.approxBytes ∧ db' = db) := by
  unfold maybeFlush at h
  split at h
  · rename_i ht
    exact Or.inl ⟨ht, h⟩
  · rename_i ht
    exact Or.inr ⟨ht, (Option.some.inj h).symm⟩

/-- Either there is nothing to merge, or the merge of the chosen files begins. -/
theorem pick_shape {pq : SourceQueue} {read : List FileMeta → Except Fault (List (List Entry))}
    (h : db.pickWith pq read = some db') :
    db.compactionPending = true ∧ db.job = none ∧
      ((pickCompaction db.opts db.forceCompact db.version).inputs = [] ∧
        db' = { db with compactionPending := false } ∨
      (pickCompaction db.opts db.forceCompact db.version).inputs ≠ [] ∧ ∃ sources,
        read (pickCompaction db.opts db.forceCompact db.version).inputs = .ok sources ∧
        db' = { db with
          compactionPending := false
          job := some ⟨pickCompaction db.opts db.forceCompact db.version,
            mergeOutputs db.oldestLiveSnapshot
              (pickCompaction db.opts db.forceCompact db.version).isBottommost
              db.opts.targetFileSize.toNat (mergeVersions pq sources), none, []⟩ }) := by
  unfold pickWith at h
  split at h
  · rename_i hc
    refine ⟨hc.1, by simpa using hc.2, ?_⟩
    simp only at h
    split at h
    · rename_i hin
      exact Or.inl ⟨hin, (Option.some.inj h).symm⟩
    · rename_i hin
      split at h
      · simp at h
      · rename_i sources hread
        exact Or.inr ⟨hin, sources, hread, (Option.some.inj h).symm⟩
  · simp at h

theorem startWriter_inv (h : db.startWriter = some db') :
    ∃ job chunk chunks outputs, db.job = some ⟨job, chunk :: chunks, none, outputs⟩ ∧
      db.nextSst < 2 ^ 31 - 1 ∧ db' = { db with
        nextSst := db.nextSst + 1
        dir := { db.dir with tmp := db.nextSst :: db.dir.tmp.filter (· ≠ db.nextSst) }
        job := some ⟨job, chunks, some (db.nextSst, chunk), outputs⟩ } := by
  unfold startWriter at h
  split at h
  · rename_i job chunk chunks outputs hj
    obtain ⟨⟨number, db1⟩, halloc, h⟩ := Option.bind_eq_some_iff.1 h
    obtain ⟨hlt, rfl, rfl⟩ := allocSst_inv halloc
    exact ⟨job, chunk, chunks, outputs, hj, hlt, (Option.some.inj h).symm⟩
  · simp at h

theorem finishWriter_shape (h : db.finishWriter = some db') :
    ∃ job chunks number chunk outputs file fm,
      db.job = some ⟨job, chunks, some (number, chunk), outputs⟩ ∧
      buildTable number job.outputLevel chunk = some (file, fm) ∧ db' = { db with
        dir := db.dir.execAll [.install number file]
        job := some ⟨job, chunks, none, outputs ++ [fm]⟩ } := by
  unfold finishWriter at h
  split at h
  · rename_i job chunks number chunk outputs hj
    obtain ⟨⟨file, fm⟩, hbuild, h⟩ := Option.bind_eq_some_iff.1 h
    exact ⟨job, chunks, number, chunk, outputs, file, fm, hj, hbuild, (Option.some.inj h).symm⟩
  · simp at h

theorem commit_inv (h : db.commit = some db') :
    ∃ job outputs, db.job = some ⟨job, [], none, outputs⟩ ∧
      (outputs = [] ∧ db' = { db with
        compactionPending := db.compactionPending || needsCompaction db.opts db.version
        job := none } ∨
      outputs ≠ [] ∧ db' = { db with
        dir := { db.dir with
          manifest := Manifest.appendSnapshot db.dir.manifest
            (commitVersion db.version job outputs).toManifest }
        version := commitVersion db.version job outputs
        doomed := db.doomed ++ job.inputs.map FileMeta.number
        compactionPending := db.compactionPending ||
          needsCompaction db.opts (commitVersion db.version job outputs)
        job := none }) := by
  unfold commit at h
  split at h
  · rename_i job outputs hj
    refine ⟨job, outputs, hj, ?_⟩
    split at h
    · rename_i ho
      exact Or.inl ⟨ho, (Option.some.inj h).symm⟩
    · rename_i ho
      exact Or.inr ⟨ho, (Option.some.inj h).symm⟩
  · simp at h

theorem unlink_inv {number : Nat} (h : db.unlink number = some db') :
    number ∈ db.doomed ∧ db' = { db with
      dir := { db.dir with sst := db.dir.sst.filter fun p => p.1 ≠ number }
      doomed := db.doomed.filter fun n => n ≠ number } := by
  unfold unlink at h
  split at h
  · rename_i hn
    exact ⟨hn, (Option.some.inj h).symm⟩
  · simp at h

theorem reopen_inv {opts : Options} {coins : List (List Bool)} (h : db.reopen opts coins = some db') :
    db.inflight = [] ∧ db.job = none ∧ db.doomed = [] ∧ db.waiting = 0 ∧
      DB.open opts coins db.dir = .ok db' := by
  unfold reopen at h
  split at h
  · rename_i hc
    exact ⟨hc.1, by simpa using hc.2.1, hc.2.2.1, hc.2.2.2, eq_ok_of_toOption h⟩
  · simp at h

theorem openFile_inv {dir : Dir} {entry : ManifestEntry} {fm : FileMeta}
    (h : openFile dir entry = .ok (some fm)) :
    ∃ file, dir.find entry.number = some (fm.number, file) ∧ SSTable.open file = .ok fm.table := by
  unfold openFile at h
  split at h
  · exact nomatch h
  · rename_i number file hfind
    obtain ⟨table, hopen, h⟩ := bind_eq_ok h
    obtain ⟨range, -, h⟩ := bind_eq_ok h
    obtain rfl := Option.some.inj (Except.ok.inj h)
    exact ⟨file, hfind, hopen⟩

/-- Every file of the initial version is one of the directory. -/
theorem mem_openFiles {dir : Dir} {live : List ManifestEntry} {files : List FileMeta}
    (h : openFiles dir live = .ok files) {fm : FileMeta} (hfm : fm ∈ files) :
    ∃ entry ∈ live, ∃ file, dir.find entry.number = some (fm.number, file) ∧
      SSTable.open file = .ok fm.table := by
  induction live generalizing files with
  | nil =>
    obtain rfl := Except.ok.inj h
    simp at hfm
  | cons entry live ih =>
    obtain ⟨fm?, hfile, h⟩ := bind_eq_ok h
    obtain ⟨rest, hrest, h⟩ := bind_eq_ok h
    obtain rfl := Except.ok.inj h
    rcases List.mem_append.1 hfm with hfm | hfm
    · obtain rfl := Option.mem_toList.1 hfm
      exact ⟨entry, List.mem_cons_self, openFile_inv hfile⟩
    · obtain ⟨entry', hmem, hf⟩ := ih hrest hfm
      exact ⟨entry', List.mem_cons_of_mem entry hmem, hf⟩

/-- What `DB::open` makes of any directory it can open. -/
theorem open_inv {opts : Options} {coins : List (List Bool)} {dir : Dir}
    (h : DB.open opts coins dir = .ok db) : ∃ files, openFiles dir (liveEntries dir) = .ok files ∧
      db = {
        dir := dir.execAll (openOps dir)
        opts := opts
        memtable := Memtable.fresh.applyAll (Wal.replay dir.wal) coins
        version := openVersion files
        nextSst := nextNumber dir (liveEntries dir)
        nextSeq := openSeq (Wal.replay dir.wal) (openVersion files) } := by
  unfold DB.open at h
  cases hf : openFiles dir (liveEntries dir) with
  | error fault =>
    rw [hf] at h
    exact nomatch h
  | ok files =>
    rw [hf] at h
    exact ⟨files, rfl, (Except.ok.inj h).symm⟩

/-- One turn of the loop of `DB::compact`: the call leaves it, or asks for a round. -/
theorem compactTurn_inv (db : DB) :
    (compactDone db.version = true ∧
      db.compactTurn = { db with forceCompact := false, waiting := db.waiting - 1 }) ∨
    (compactDone db.version = false ∧
      db.compactTurn = { db with compactionPending := db.compactionPending || db.job.isNone }) := by
  unfold compactTurn
  split
  · rename_i hd
    exact Or.inl ⟨hd, rfl⟩
  · rename_i hd
    exact Or.inr ⟨by simpa using hd, rfl⟩

theorem compactWake_inv (h : db.compactWake = some db') :
    0 < db.waiting ∧ db.compactionPending = false ∧ db.job = none ∧ db' = db.compactTurn := by
  unfold compactWake at h
  split at h
  · rename_i hc
    exact ⟨hc.1, hc.2.1, by simpa using hc.2.2, (Option.some.inj h).symm⟩
  · simp at h

/-- Without a round in progress the compaction thread can only pick one. -/
theorem no_job (hj : db.job = none) :
    db.startWriter = none ∧ db.finishWriter = none ∧ db.commit = none := by
  simp [startWriter, finishWriter, commit, hj]

end DB

/-- Snapshots and the calls of `DB::compact`. -/
def Event.ofCalls : Event → Bool
  | .getSnapshot => true
  | .releaseSnapshot _ => true
  | .compactCall => true
  | .compactWake => true
  | _ => false

/-- They change nothing but fields of their own. -/
theorem DB.calls_shape {db db' : DB} {ev : Event} (hev : ev.ofCalls = true)
    (h : db.step ev = some db') : ∃ snaps pending force waiting, db' = { db with
      liveSnapshots := snaps
      compactionPending := pending
      forceCompact := force
      waiting := waiting } := by
  have hturn : ∀ db₁ : DB, ∃ pending force waiting, db₁.compactTurn = { db₁ with
      compactionPending := pending
      forceCompact := force
      waiting := waiting } := by
    intro db₁
    rcases DB.compactTurn_inv db₁ with ⟨-, he⟩ | ⟨-, he⟩ <;> exact ⟨_, _, _, he⟩
  cases ev with
  | getSnapshot => exact ⟨_, _, _, _, (Option.some.inj h).symm⟩
  | releaseSnapshot seq => exact ⟨_, _, _, _, (Option.some.inj h).symm⟩
  | compactCall =>
    obtain ⟨pending, force, waiting, he⟩ :=
      hturn { db with forceCompact := true, waiting := db.waiting + 1 }
    exact ⟨_, pending, force, waiting, (Option.some.inj h).symm.trans he⟩
  | compactWake =>
    obtain ⟨-, -, -, rfl⟩ := DB.compactWake_inv h
    obtain ⟨pending, force, waiting, he⟩ := hturn db
    exact ⟨_, pending, force, waiting, he⟩
  | _ => exact nomatch hev

/-! ## The directory -/

namespace DB

variable {db db' : DB}

/-- What `flush` does to the directory, if it gets that far. -/
def flushDiskOps (db : DB) : List DiskOp :=
  if db.memtable.approxBytes = 0 then []
  else
    match buildTable db.nextSst 0 db.memtable.entries with
    | some (file, fm) => flushOps db.nextSst file (db.version.pushL0 fm)
    | none => []

/-- What a step does to the directory, in order. -/
def diskOps (db : DB) : Event → List DiskOp
  | .apply _ => [.appendWal db.inflight]
  | .flush => db.flushDiskOps
  | .maybeFlush =>
    if db.opts.flushThresholdBytes.toNat ≤ db.memtable.approxBytes then db.flushDiskOps else []
  | .startWriter => [.writeTmp db.nextSst]
  | .finishWriter =>
    match db.job with
    | some ⟨job, _, some (number, chunk), _⟩ =>
      match buildTable number job.outputLevel chunk with
      | some (file, _) => [.install number file]
      | none => []
    | _ => []
  | .commit =>
    match db.job with
    | some ⟨job, [], none, outputs⟩ =>
      if outputs = [] then []
      else [.appendManifest (commitVersion db.version job outputs).toManifest]
    | _ => []
  | .unlink number => [.removeSst number]
  | .reopen _ _ => openOps db.dir
  | _ => []

theorem flush_dir (h : db.flush = some db') : db'.dir = db.dir.execAll db.flushDiskOps := by
  unfold flushDiskOps
  rcases flush_shape h with ⟨hz, rfl⟩ | ⟨hz, -, file, fm, hbuild, rfl⟩
  · rw [if_pos hz]
    rfl
  · rw [if_neg hz, hbuild]

theorem step_dir {ev : Event} (h : db.step ev = some db') :
    db'.dir = db.dir.execAll (db.diskOps ev) := by
  cases ev with
  | assign ops =>
    obtain ⟨-, -, rfl⟩ := assign_inv h
    rfl
  | apply coins =>
    obtain ⟨-, rfl⟩ := apply_inv h
    rfl
  | flush => exact flush_dir h
  | maybeFlush =>
    simp only [DB.step, maybeFlush, diskOps] at h ⊢
    split at h
    · rename_i ht
      rw [if_pos ht]
      exact flush_dir h
    · rename_i ht
      rw [if_neg ht, Option.some.inj h]
      rfl
  | getSnapshot | releaseSnapshot _ | compactCall | compactWake =>
    obtain ⟨_, _, _, _, rfl⟩ := calls_shape rfl h
    rfl
  | pick pq =>
    obtain ⟨-, -, ⟨-, rfl⟩ | ⟨-, sources, -, rfl⟩⟩ := pick_shape h <;> rfl
  | startWriter =>
    obtain ⟨job, chunk, chunks, outputs, -, -, rfl⟩ := startWriter_inv h
    rfl
  | finishWriter =>
    obtain ⟨job, chunks, number, chunk, outputs, file, fm, hj, hbuild, rfl⟩ := finishWriter_shape h
    simp only [diskOps, hj, hbuild]
  | commit =>
    obtain ⟨job, outputs, hj, ⟨ho, rfl⟩ | ⟨ho, rfl⟩⟩ := commit_inv h
    · simp only [diskOps, hj, if_pos ho]
      rfl
    · simp only [diskOps, hj, if_neg ho]
      rfl
  | unlink number =>
    obtain ⟨-, rfl⟩ := unlink_inv h
    rfl
  | reopen opts coins =>
    obtain ⟨-, -, -, -, hopen⟩ := reopen_inv h
    obtain ⟨files, -, rfl⟩ := open_inv hopen
    rfl

end DB

/-! ## What the events leave alone -/

namespace Event

/-- The engine's own account of the writers, and closing the store. -/
def ofWriters : Event → Bool
  | .assign _ => true
  | .apply _ => true
  | .reopen _ _ => true
  | _ => false

def ofSnapshots : Event → Bool
  | .getSnapshot => true
  | .releaseSnapshot _ => true
  | .reopen _ _ => true
  | _ => false

/-- The calls of `DB::compact`. -/
def ofCompact : Event → Bool
  | .compactCall => true
  | .compactWake => true
  | .reopen _ _ => true
  | _ => false

/-- The log and the memtable. -/
def ofLog : Event → Bool
  | .apply _ => true
  | .flush => true
  | .maybeFlush => true
  | .reopen _ _ => true
  | _ => false

/-- The files of the version. -/
def ofVersion : Event → Bool
  | .flush => true
  | .maybeFlush => true
  | .commit => true
  | .reopen _ _ => true
  | _ => false

/-- The round in progress. -/
def ofJob : Event → Bool
  | .pick _ => true
  | .startWriter => true
  | .finishWriter => true
  | .commit => true
  | .reopen _ _ => true
  | _ => false

def ofOpen : Event → Bool
  | .reopen _ _ => true
  | _ => false

end Event

/-- Which parts of the state a step leaves as they are. -/
structure DB.Frame (db : DB) (ev : Event) (db' : DB) : Prop where
  writers : ev.ofWriters = false → db'.nextSeq = db.nextSeq ∧ db'.inflight = db.inflight
  snapshots : ev.ofSnapshots = false → db'.liveSnapshots = db.liveSnapshots
  calls : ev.ofCompact = false → db'.waiting = db.waiting ∧ db'.forceCompact = db.forceCompact
  log : ev.ofLog = false → db'.memtable = db.memtable ∧ db'.dir.wal = db.dir.wal
  version : ev.ofVersion = false → db'.version = db.version
  job : ev.ofJob = false → db'.job = db.job
  counters : ev.ofOpen = false → db'.opts = db.opts ∧ db.nextSst ≤ db'.nextSst

theorem DB.step_frame {db db' : DB} {ev : Event} (h : db.step ev = some db') : db.Frame ev db' := by
  have hflush : (ev = .flush ∨ ev = .maybeFlush) → db.flush = some db' → db.Frame ev db' := by
    intro hev hf
    have hnext : db.nextSst ≤ db'.nextSst := by
      rcases flush_shape hf with ⟨-, rfl⟩ | ⟨-, -, file, fm, -, rfl⟩
      · exact le_rfl
      · exact Nat.le_succ _
    rcases hev with rfl | rfl <;>
      rcases flush_shape hf with ⟨-, rfl⟩ | ⟨-, -, file, fm, -, rfl⟩ <;>
      exact ⟨fun _ => ⟨rfl, rfl⟩, fun _ => rfl, fun _ => ⟨rfl, rfl⟩, nofun, nofun, fun _ => rfl,
        fun _ => ⟨rfl, hnext⟩⟩
  have hturn : ∀ db₁ : DB, (ev = .compactCall ∨ ev = .compactWake) → db₁.nextSeq = db.nextSeq ∧
      db₁.inflight = db.inflight ∧ db₁.liveSnapshots = db.liveSnapshots ∧
      db₁.memtable = db.memtable ∧ db₁.dir = db.dir ∧ db₁.version = db.version ∧
      db₁.job = db.job ∧ db₁.opts = db.opts ∧ db.nextSst ≤ db₁.nextSst →
      db.Frame ev db₁.compactTurn := by
    rintro db₁ hev ⟨h1, h2, h3, h4, h5, h6, h7, h8⟩
    rcases compactTurn_inv db₁ with ⟨-, he⟩ | ⟨-, he⟩ <;> rw [he] <;> rcases hev with rfl | rfl <;>
      exact ⟨fun _ => ⟨h1, h2⟩, fun _ => h3, nofun, fun _ => ⟨h4, congrArg Dir.wal h5⟩, fun _ => h6,
        fun _ => h7, fun _ => h8⟩
  cases ev with
  | assign ops =>
    obtain ⟨-, -, rfl⟩ := assign_inv h
    exact ⟨nofun, fun _ => rfl, fun _ => ⟨rfl, rfl⟩, fun _ => ⟨rfl, rfl⟩, fun _ => rfl, fun _ => rfl,
      fun _ => ⟨rfl, le_rfl⟩⟩
  | apply coins =>
    obtain ⟨-, rfl⟩ := apply_inv h
    exact ⟨nofun, fun _ => rfl, fun _ => ⟨rfl, rfl⟩, nofun, fun _ => rfl, fun _ => rfl,
      fun _ => ⟨rfl, le_rfl⟩⟩
  | flush => exact hflush (Or.inl rfl) h
  | maybeFlush =>
    rcases maybeFlush_inv h with ⟨-, h⟩ | ⟨-, rfl⟩
    · exact hflush (Or.inr rfl) h
    · exact ⟨fun _ => ⟨rfl, rfl⟩, fun _ => rfl, fun _ => ⟨rfl, rfl⟩, nofun, nofun, fun _ => rfl,
        fun _ => ⟨rfl, le_rfl⟩⟩
  | getSnapshot =>
    obtain rfl := Option.some.inj h
    exact ⟨fun _ => ⟨rfl, rfl⟩, nofun, fun _ => ⟨rfl, rfl⟩, fun _ => ⟨rfl, rfl⟩, fun _ => rfl,
      fun _ => rfl, fun _ => ⟨rfl, le_rfl⟩⟩
  | releaseSnapshot seq =>
    obtain rfl := Option.some.inj h
    exact ⟨fun _ => ⟨rfl, rfl⟩, nofun, fun _ => ⟨rfl, rfl⟩, fun _ => ⟨rfl, rfl⟩, fun _ => rfl,
      fun _ => rfl, fun _ => ⟨rfl, le_rfl⟩⟩
  | compactCall =>
    obtain rfl := Option.some.inj h
    exact hturn _ (Or.inl rfl) ⟨rfl, rfl, rfl, rfl, rfl, rfl, rfl, rfl, le_rfl⟩
  | compactWake =>
    obtain ⟨-, -, -, rfl⟩ := compactWake_inv h
    exact hturn db (Or.inr rfl) ⟨rfl, rfl, rfl, rfl, rfl, rfl, rfl, rfl, le_rfl⟩
  | pick pq =>
    obtain ⟨-, -, ⟨-, rfl⟩ | ⟨-, sources, -, rfl⟩⟩ := pick_shape h <;>
      exact ⟨fun _ => ⟨rfl, rfl⟩, fun _ => rfl, fun _ => ⟨rfl, rfl⟩, fun _ => ⟨rfl, rfl⟩,
        fun _ => rfl, nofun, fun _ => ⟨rfl, le_rfl⟩⟩
  | startWriter =>
    obtain ⟨job, chunk, chunks, outputs, -, -, rfl⟩ := startWriter_inv h
    exact ⟨fun _ => ⟨rfl, rfl⟩, fun _ => rfl, fun _ => ⟨rfl, rfl⟩, fun _ => ⟨rfl, rfl⟩, fun _ => rfl,
      nofun, fun _ => ⟨rfl, Nat.le_succ _⟩⟩
  | finishWriter =>
    obtain ⟨job, chunks, number, chunk, outputs, file, fm, -, -, rfl⟩ := finishWriter_shape h
    exact ⟨fun _ => ⟨rfl, rfl⟩, fun _ => rfl, fun _ => ⟨rfl, rfl⟩, fun _ => ⟨rfl, rfl⟩, fun _ => rfl,
      nofun, fun _ => ⟨rfl, le_rfl⟩⟩
  | commit =>
    obtain ⟨job, outputs, -, ⟨-, rfl⟩ | ⟨-, rfl⟩⟩ := commit_inv h <;>
      exact ⟨fun _ => ⟨rfl, rfl⟩, fun _ => rfl, fun _ => ⟨rfl, rfl⟩, fun _ => ⟨rfl, rfl⟩, nofun, nofun,
        fun _ => ⟨rfl, le_rfl⟩⟩
  | unlink number =>
    obtain ⟨-, rfl⟩ := unlink_inv h
    exact ⟨fun _ => ⟨rfl, rfl⟩, fun _ => rfl, fun _ => ⟨rfl, rfl⟩, fun _ => ⟨rfl, rfl⟩, fun _ => rfl,
      fun _ => rfl, fun _ => ⟨rfl, le_rfl⟩⟩
  | reopen opts coins => exact ⟨nofun, nofun, nofun, nofun, nofun, nofun, nofun⟩

/-- Without a round in progress only a pick begins one. -/
theorem DB.step_job_none {db db' : DB} {ev : Event} (hj : db.job = none)
    (hr : ∀ opts coins, ev ≠ .reopen opts coins) (h : db.step ev = some db') :
    (∃ pq, ev = .pick pq) ∨ db'.job = none := by
  have hsame := (DB.step_frame h).job
  obtain ⟨hstart, hfinish, hcommit⟩ := DB.no_job hj
  cases ev with
  | pick pq => exact Or.inl ⟨pq, rfl⟩
  | startWriter => exact nomatch hstart.symm.trans h
  | finishWriter => exact nomatch hfinish.symm.trans h
  | commit => exact nomatch hcommit.symm.trans h
  | reopen opts coins => exact absurd rfl (hr opts coins)
  | _ => exact Or.inr ((hsame rfl).trans hj)

/-- A round in progress after a step was picked by it, or was there before. -/
theorem DB.round_before {db db' : DB} {ev : Event} (hr : ∀ opts coins, ev ≠ .reopen opts coins)
    (h : db.step ev = some db') {j' : Job} (hj' : db'.job = some j') :
    (∃ pq, ev = .pick pq ∧ db.job = none) ∨ ∃ j, db.job = some j ∧ ev ≠ .commit := by
  cases hj : db.job with
  | none =>
    rcases DB.step_job_none hj hr h with ⟨pq, rfl⟩ | hnone
    · exact Or.inl ⟨pq, rfl, rfl⟩
    · exact nomatch hnone.symm.trans hj'
  | some j =>
    refine Or.inr ⟨j, rfl, ?_⟩
    rintro rfl
    obtain ⟨job, outputs, -, ⟨-, rfl⟩ | ⟨-, rfl⟩⟩ := DB.commit_inv h <;> exact nomatch hj'

/-! ## The MANIFEST -/

namespace DB

variable {db db' : DB}

/-- The MANIFEST changes with the version: both stay, or the new version is appended. -/
theorem flush_manifest (h : db.flush = some db') :
    (db'.version = db.version ∧ db'.dir.manifest = db.dir.manifest) ∨
      (db'.dir.manifest = Manifest.appendSnapshot db.dir.manifest db'.version.toManifest ∧
        .appendManifest db'.version.toManifest ∈ db.flushDiskOps) := by
  rcases flush_shape h with ⟨-, rfl⟩ | ⟨hz, -, file, fm, hbuild, rfl⟩
  · exact Or.inl ⟨rfl, rfl⟩
  · refine Or.inr ⟨rfl, ?_⟩
    simp [flushDiskOps, hz, hbuild, flushOps]

theorem step_manifest {ev : Event} (hev : ∀ opts coins, ev ≠ .reopen opts coins)
    (h : db.step ev = some db') :
    (db'.version = db.version ∧ db'.dir.manifest = db.dir.manifest) ∨
      (db'.dir.manifest = Manifest.appendSnapshot db.dir.manifest db'.version.toManifest ∧
        .appendManifest db'.version.toManifest ∈ db.diskOps ev) := by
  have hver := (step_frame h).version
  have hdir := congrArg Dir.manifest (step_dir h)
  cases ev with
  | flush => exact flush_manifest h
  | maybeFlush =>
    simp only [DB.step, maybeFlush, diskOps] at h ⊢
    split at h
    · rename_i ht
      rw [if_pos ht]
      exact flush_manifest h
    · exact Or.inl (Option.some.inj h ▸ ⟨rfl, rfl⟩)
  | finishWriter =>
    obtain ⟨job, chunks, number, chunk, outputs, file, fm, -, -, rfl⟩ := finishWriter_shape h
    exact Or.inl ⟨rfl, rfl⟩
  | commit =>
    obtain ⟨job, outputs, hj, ⟨-, rfl⟩ | ⟨ho, rfl⟩⟩ := commit_inv h
    · exact Or.inl ⟨rfl, rfl⟩
    · refine Or.inr ⟨rfl, ?_⟩
      simp only [diskOps, hj, if_neg ho]
      exact List.mem_singleton.2 rfl
  | reopen opts coins => exact absurd rfl (hev opts coins)
  | _ => exact Or.inl ⟨hver rfl, hdir⟩

/-- The step is a flush that finds something to write. -/
def flushes (db : DB) : Event → Bool
  | .flush => db.memtable.approxBytes ≠ 0
  | .maybeFlush => db.opts.flushThresholdBytes.toNat ≤ db.memtable.approxBytes ∧
      db.memtable.approxBytes ≠ 0
  | _ => false

theorem flush_wal (h : db.flush = some db') :
    (db.memtable.approxBytes ≠ 0 ∧ db'.dir.wal = some [] ∧ db'.memtable = .fresh) ∨
      (db.memtable.approxBytes = 0 ∧ db'.dir.wal = db.dir.wal ∧ db'.memtable = db.memtable) := by
  rcases flush_shape h with ⟨hz, rfl⟩ | ⟨hz, -, file, fm, -, rfl⟩
  · exact Or.inr ⟨hz, rfl, rfl⟩
  · refine Or.inl ⟨hz, ?_, rfl⟩
    cases hwal : db.dir.wal <;> simp [flushOps, Dir.execAll, Dir.exec, hwal]

/-- A flush that writes leaves the log and the memtable empty; the other threads do not touch
    them. -/
theorem step_flushes {ev : Event} (hev : ev.ofWriters = false) (h : db.step ev = some db') :
    (db.flushes ev = true ∧ db'.dir.wal = some [] ∧ db'.memtable = .fresh) ∨
      (db.flushes ev = false ∧ db'.dir.wal = db.dir.wal ∧ db'.memtable = db.memtable) := by
  by_cases hlog : ev.ofLog = false
  · obtain ⟨hmem, hwal⟩ := (step_frame h).log hlog
    refine Or.inr ⟨?_, hwal, hmem⟩
    cases ev <;> first | rfl | exact nomatch hlog
  · cases ev with
    | flush =>
      rcases flush_wal h with ⟨hz, hrest⟩ | ⟨hz, hrest⟩
      · exact Or.inl ⟨decide_eq_true hz, hrest⟩
      · exact Or.inr ⟨decide_eq_false fun hne => hne hz, hrest⟩
    | maybeFlush =>
      rcases maybeFlush_inv h with ⟨ht, hf⟩ | ⟨ht, rfl⟩
      · rcases flush_wal hf with ⟨hz, hrest⟩ | ⟨hz, hrest⟩
        · exact Or.inl ⟨decide_eq_true ⟨ht, hz⟩, hrest⟩
        · exact Or.inr ⟨decide_eq_false fun hne => hne.2 hz, hrest⟩
      · exact Or.inr ⟨decide_eq_false fun hne => ht hne.1, rfl, rfl⟩
    | _ => first | exact absurd rfl hlog | exact nomatch hev

end DB

end Keystone
