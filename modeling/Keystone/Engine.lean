/-
  The engine: `DB` as a state machine.

  The state is the memory of the process (memtable, current version, counters, snapshots, the
  local variables of the compaction thread) together with the directory. An `Event` is one
  section of the source that runs under a mutex, or one file operation of the compaction
  thread, so a run is any interleaving of writers, `flush`, `compact` and the background
  rounds. What an event does to the directory is a list of `DiskOp`s, in order: a crash can
  come between any two of them.

  `DB::get` and `DB::scan` change nothing and are in `Keystone.Read`.
-/
import Keystone.Lib.Steps
import Keystone.Memtable
import Keystone.Version
import Keystone.Wal

namespace Keystone

/-! ## Write calls -/

/-- The two write calls. `DB::write` checks no length. -/
inductive Op where
  | put (key value : Bytes)
  | del (key : Bytes)
  deriving DecidableEq, Repr

namespace Op

def type : Op → RecType
  | put _ _ => .put
  | del _ => .delete

def key : Op → Bytes
  | put key _ => key
  | del key => key

/-- `DB::del` passes an empty value. -/
def value : Op → Bytes
  | put _ value => value
  | del _ => []

/-- Both lengths are within the limit of the log. -/
def Fits (op : Op) : Prop :=
  op.key.length ≤ Wal.maxFieldLen ∧ op.value.length ≤ Wal.maxFieldLen

instance (op : Op) : Decidable op.Fits := inferInstanceAs (Decidable (_ ∧ _))

end Op

/-- The log record of a call once it has a sequence number. -/
def Op.record (op : Op) (seq : UInt64) : Wal.Record := ⟨op.type, seq, op.key, op.value⟩

/-- A call of `put` on one-byte strings. -/
def putByte (key value : UInt8) : Op := .put [key] [value]

/-- The log records of a batch: `r->seq = next_seq_++` over it. -/
def batchRecords : UInt64 → List Op → List Wal.Record
  | _, [] => []
  | nextSeq, op :: ops => op.record nextSeq :: batchRecords (nextSeq + 1) ops

/-- What the memtable stores for a record. -/
def Wal.Record.entry (r : Wal.Record) : Entry :=
  if r.type = .put then ⟨r.key, r.value, false, r.seq⟩ else ⟨r.key, [], true, r.seq⟩

namespace Memtable

/-- `std::make_unique<Memtable>()`. -/
def fresh : Memtable := Memtable.new 12 (by decide)

/-- `put` or `del`, as the type of the record says. -/
def applyRecord (m : Memtable) (r : Wal.Record) (coins : List Bool) : Memtable :=
  if r.type = .put then m.put r.key r.value r.seq coins else m.del r.key r.seq coins

/-- The loop over a batch or over the replayed log; `coins` has the coin flips of each insert. -/
def applyAll : Memtable → List Wal.Record → List (List Bool) → Memtable
  | m, [], _ => m
  | m, r :: rs, coins => applyAll (m.applyRecord r (coins.headD [])) rs coins.tail

end Memtable

/-! ## The directory -/

/-- The directory: `wal.log`, `MANIFEST`, the `.sst` files by number, and the numbers of the
    `.sst.tmp` files, whose content is never read. -/
structure Dir where
  wal : Option Bytes := none
  manifest : Option Bytes := none
  sst : List (Nat × Bytes) := []
  tmp : List Nat := []
  deriving DecidableEq, Repr

/-- One change of the directory. -/
inductive DiskOp where
  /-- `SSTableWriter` creates and fills its temporary file. -/
  | writeTmp (number : Nat)
  /-- `SSTableWriter::install`: the rename. -/
  | install (number : Nat) (file : Bytes)
  | appendManifest (snapshot : List ManifestEntry)
  | appendWal (records : List Wal.Record)
  /-- `std::filesystem::resize_file` on `wal.log`. -/
  | resizeWal (size : Nat)
  /-- `WAL::open`: creates the file if it is not there. -/
  | openWal
  /-- `Manifest::open`: creates the file if it is not there. -/
  | openManifest
  | removeTmp (number : Nat)
  | removeSst (number : Nat)
  deriving DecidableEq, Repr

namespace Dir

def exec (dir : Dir) : DiskOp → Dir
  | .writeTmp n => { dir with tmp := n :: dir.tmp.filter (· ≠ n) }
  | .install n file =>
    { dir with sst := (n, file) :: dir.sst.filter (·.1 ≠ n), tmp := dir.tmp.filter (· ≠ n) }
  | .appendManifest snapshot => { dir with manifest := Manifest.appendSnapshot dir.manifest snapshot }
  | .appendWal records => { dir with wal := some (Wal.appendBatch (dir.wal.getD []) records) }
  | .resizeWal size =>
    { dir with wal := dir.wal.map fun log =>
        log.take size ++ List.replicate (size - log.length) 0 }
  | .openWal => { dir with wal := some (dir.wal.getD []) }
  | .openManifest => { dir with manifest := some (dir.manifest.getD []) }
  | .removeTmp n => { dir with tmp := dir.tmp.filter (· ≠ n) }
  | .removeSst n => { dir with sst := dir.sst.filter (·.1 ≠ n) }

def execAll (dir : Dir) (ops : List DiskOp) : Dir := ops.foldl exec dir

/-- The `.sst` file a number of the MANIFEST names. -/
def find (dir : Dir) (number : Int32) : Option (Nat × Bytes) :=
  dir.sst.find? fun p => (p.1 : Int) = number.toInt

end Dir

/-! ## The state -/

/-- A background round between its pick and its commit. `chunks` are the entries of the output
    files that are not begun, `writer` is the open one. -/
structure Job where
  job : CompactionJob
  chunks : List (List Entry)
  writer : Option (Nat × List Entry) := none
  outputs : List FileMeta := []

/-- The process and its directory. `inflight` are the records of the batch whose sequence
    numbers are assigned but which is not yet applied; `doomed` the inputs of committed rounds
    whose files are not yet unlinked; `waiting` the calls of `compact` that have not returned.
    `compaction_running_` holds exactly while there is a `job`. -/
structure DB where
  dir : Dir
  opts : Options
  memtable : Memtable := .fresh
  version : Version := .empty
  nextSst : Nat := 1
  nextSeq : UInt64 := 1
  liveSnapshots : List UInt64 := []
  compactionPending : Bool := false
  forceCompact : Bool := false
  job : Option Job := none
  inflight : List Wal.Record := []
  doomed : List Nat := []
  waiting : Nat := 0

namespace DB

/-- `DB::oldest_live_snapshot`. -/
def oldestLiveSnapshot (db : DB) : UInt64 := db.liveSnapshots.foldl min uint64Max

/-- `next_sst_number_++`, which must stay an `int`. -/
def allocSst (db : DB) : Option (Nat × DB) :=
  if db.nextSst < 2 ^ 31 - 1 then some (db.nextSst, { db with nextSst := db.nextSst + 1 })
  else none

/-- `finish`, `install` and `SSTable::open` of a new table: the file and its `FileMeta`. -/
def buildTable (number : Nat) (level : Level) (es : List Entry) : Option (Bytes × FileMeta) :=
  let writer := SSTableWriter.new.addAll es
  match writer.finish with
  | none => none
  | some file =>
    match SSTable.open file with
    | .error _ => none
    | .ok table => some (file, ⟨number, level, writer.smallestKey, writer.largestKey, table⟩)

/-! ## Writers -/

/-- The leader assigns the sequence numbers of its batch. -/
def assign (db : DB) (ops : List Op) : Option DB :=
  if db.inflight = [] ∧ ops ≠ [] then
    some { db with
      inflight := batchRecords db.nextSeq ops
      nextSeq := db.nextSeq + UInt64.ofNat ops.length }
  else none

/-- The leader appends its batch to the log and applies it. -/
def apply (db : DB) (coins : List (List Bool)) : Option DB :=
  if db.inflight ≠ [] then
    some { db with
      dir := db.dir.execAll [.appendWal db.inflight]
      memtable := db.memtable.applyAll db.inflight coins
      inflight := [] }
  else none

/-- What `DB::flush` does to the directory. -/
def flushOps (number : Nat) (file : Bytes) (ver : Version) : List DiskOp :=
  [.writeTmp number, .install number file, .appendManifest ver.toManifest, .resizeWal 0, .openWal]

/-- `DB::flush`. -/
def flush (db : DB) : Option DB :=
  if db.memtable.approxBytes = 0 then some db
  else do
    let (number, db) ← db.allocSst
    let (file, fm) ← buildTable number 0 db.memtable.entries
    let ver := db.version.pushL0 fm
    some { db with
      dir := db.dir.execAll (flushOps number file ver)
      version := ver
      memtable := .fresh
      compactionPending := db.compactionPending ||
        (db.opts.compactionTrigger.toNat ≤ (ver.files 0).length && db.job.isNone) }

/-- `DB::maybe_flush`. -/
def maybeFlush (db : DB) : Option DB :=
  if db.opts.flushThresholdBytes.toNat ≤ db.memtable.approxBytes then db.flush else some db

/-! ## Snapshots -/

/-- `DB::get_snapshot`: the sequence number of the snapshot. -/
def snapshotSeq (db : DB) : UInt64 := db.nextSeq - 1

def getSnapshot (db : DB) : DB :=
  { db with liveSnapshots := db.snapshotSeq :: db.liveSnapshots }

/-- `DB::release_snapshot`. -/
def releaseSnapshot (db : DB) (seq : UInt64) : DB :=
  { db with liveSnapshots := db.liveSnapshots.erase seq }

/-! ## Compaction -/

/-- The condition on which the loop of `DB::compact` ends. -/
def compactDone (ver : Version) : Bool :=
  ver.totalFileCount ≤ 1 ||
    (ver.files 0 = [] &&
      ((List.finRange kMaxLevels).filter fun l => 1 ≤ l ∧ ver.files l ≠ []).length ≤ 1)

/-- The loop body of `DB::compact` up to its wait; `waiting` counts the caller itself. -/
def compactTurn (db : DB) : DB :=
  if compactDone db.version then
    { db with forceCompact := false, waiting := db.waiting - 1 }
  else { db with compactionPending := db.compactionPending || db.job.isNone }

/-- A call of `DB::compact`, up to its first wait. -/
def compactCall (db : DB) : DB :=
  ({ db with forceCompact := true, waiting := db.waiting + 1 } : DB).compactTurn

/-- A waiting `DB::compact` wakes up and goes round its loop. -/
def compactWake (db : DB) : Option DB :=
  if 0 < db.waiting ∧ db.compactionPending = false ∧ db.job.isNone then some db.compactTurn
  else none

/-- The entries of the merge sources of a round. -/
def readInputs (inputs : List FileMeta) : Except Fault (List (List Entry)) :=
  inputs.mapM fun fm => fm.table.entries

/-- The compaction thread picks a round; `read` is what the merge sources make of its inputs. The
    merge reads only tables that never change, so its outcome is fixed here. -/
def pickWith (db : DB) (pq : SourceQueue)
    (read : List FileMeta → Except Fault (List (List Entry))) : Option DB :=
  if db.compactionPending ∧ db.job.isNone then
    let db := { db with compactionPending := false }
    let job := pickCompaction db.opts db.forceCompact db.version
    if job.inputs = [] then some db
    else
      match read job.inputs with
      | .error _ => none
      | .ok sources =>
        let chunks := mergeOutputs db.oldestLiveSnapshot job.isBottommost
          db.opts.targetFileSize.toNat (mergeVersions pq sources)
        some { db with job := some ⟨job, chunks, none, []⟩ }
  else none

/-- The round over what the files hold. -/
def pick (db : DB) (pq : SourceQueue) : Option DB := db.pickWith pq readInputs

/-- `start_writer`. -/
def startWriter (db : DB) : Option DB :=
  match db.job with
  | some ⟨job, chunk :: chunks, none, outputs⟩ => do
    let (number, db) ← db.allocSst
    some { db with
      dir := db.dir.execAll [.writeTmp number]
      job := some ⟨job, chunks, some (number, chunk), outputs⟩ }
  | _ => none

/-- `finish_writer`. -/
def finishWriter (db : DB) : Option DB :=
  match db.job with
  | some ⟨job, chunks, some (number, chunk), outputs⟩ => do
    let (file, fm) ← buildTable number job.outputLevel chunk
    some { db with
      dir := db.dir.execAll [.install number file]
      job := some ⟨job, chunks, none, outputs ++ [fm]⟩ }
  | _ => none

/-- The commit section of `DB::compaction_loop`. -/
def commit (db : DB) : Option DB :=
  match db.job with
  | some ⟨job, [], none, outputs⟩ =>
    if outputs = [] then
      some { db with
        compactionPending := db.compactionPending || needsCompaction db.opts db.version
        job := none }
    else
      let ver := commitVersion db.version job outputs
      some { db with
        dir := db.dir.execAll [.appendManifest ver.toManifest]
        version := ver
        doomed := db.doomed ++ job.inputs.map FileMeta.number
        compactionPending := db.compactionPending || needsCompaction db.opts ver
        job := none }
  | _ => none

/-- The last reference to the table of an input is dropped. -/
def unlink (db : DB) (number : Nat) : Option DB :=
  if number ∈ db.doomed then
    some { db with
      dir := db.dir.execAll [.removeSst number]
      doomed := db.doomed.filter (· ≠ number) }
  else none

/-! ## Opening -/

/-- The entries of the last MANIFEST snapshot. A directory with tables and no MANIFEST is one
    of an old format: everything is in L0. -/
def liveEntries (dir : Dir) : List ManifestEntry :=
  let live := Manifest.loadLatest dir.manifest
  if live = [] ∧ dir.manifest = none then
    ((dir.sst.map Prod.fst).insertionSort (· ≤ ·)).map fun n => ⟨Int32.ofNat n, 0, [], []⟩
  else live

/-- A level out of range counts as 0. -/
def clampLevel (level : Int32) : Level :=
  if h : 0 ≤ level.toInt ∧ level.toInt < kMaxLevels then ⟨level.toInt.toNat, by omega⟩ else 0

/-- The key range of a live file: as the MANIFEST has it, or from the table if a bound is
    empty. -/
def keyRange (entry : ManifestEntry) (table : SSTable) : Except Fault (Bytes × Bytes) :=
  if entry.smallestKey = [] ∨ entry.largestKey = [] then
    match table.entries with
    | .error fault => .error fault
    | .ok [] => .ok (entry.smallestKey, entry.largestKey)
    | .ok (e :: es) => .ok (e.key, lastKey (e :: es))
  else .ok (entry.smallestKey, entry.largestKey)

/-- One turn of the loop that builds the version; a file that is not there is skipped. -/
def openFile (dir : Dir) (entry : ManifestEntry) : Except Fault (Option FileMeta) :=
  match dir.find entry.number with
  | none => .ok none
  | some (number, file) => do
    let table ← SSTable.open file
    let range ← keyRange entry table
    .ok (some ⟨number, clampLevel entry.level, range.1, range.2, table⟩)

/-- That loop. -/
def openFiles (dir : Dir) : List ManifestEntry → Except Fault (List FileMeta)
  | [] => .ok []
  | entry :: live => do
    let fm ← openFile dir entry
    let files ← openFiles dir live
    .ok (fm.toList ++ files)

/-- `std::sort` by `number`. -/
def sortByNumber (files : List FileMeta) : List FileMeta :=
  files.insertionSort fun a b => a.number ≤ b.number

/-- The initial version: each level sorted by number, the levels from 1 on then by key. -/
def openVersion (files : List FileMeta) : Version :=
  ⟨fun l =>
    let level := sortByNumber (files.filter fun fm => fm.level = l)
    if 1 ≤ l then sortByKey level else level⟩

/-- The `.sst` files no live entry names. -/
def orphans (dir : Dir) (live : List ManifestEntry) : List Nat :=
  ((dir.sst.map Prod.fst).insertionSort (· ≤ ·)).filter fun n =>
    (n : Int) ∉ live.map fun entry => entry.number.toInt

/-- `max_num`: over the `.sst` files and the live entries. -/
def maxNumber (dir : Dir) (live : List ManifestEntry) : Nat :=
  (dir.sst.map Prod.fst ++ live.map fun entry => entry.number.toInt.toNat).foldl max 0

/-- `max_num + 1`, an `int`: past the largest one it is negative, and `DB::open` takes 1. -/
def nextNumber (dir : Dir) (live : List ManifestEntry) : Nat :=
  if maxNumber dir live < 2 ^ 31 - 1 then maxNumber dir live + 1 else 1

/-- The end of the valid log, as `DB::open` adds it up. -/
def validEnd (records : List Wal.Record) : Nat :=
  (records.map fun r => 21 + r.key.length + r.value.length).sum

/-- What `DB::open` does to the directory. -/
def openOps (dir : Dir) : List DiskOp :=
  (if dir.wal.isSome then [.resizeWal (validEnd (Wal.replay dir.wal))] else []) ++
    dir.tmp.map .removeTmp ++ (orphans dir (liveEntries dir)).map .removeSst ++ [.openManifest] ++
    (if dir.manifest = none ∧ liveEntries dir ≠ [] then [.appendManifest (liveEntries dir)]
      else []) ++
    [.openWal]

/-- `1 + max(max_wal_seq, max_sst_seq)`. -/
def openSeq (records : List Wal.Record) (ver : Version) : UInt64 :=
  1 + max ((records.map Wal.Record.seq).foldl max 0)
    ((ver.allFiles.map fun fm => fm.table.maxSeq).foldl max 0)

/-- `DB::open` on an existing directory. -/
def «open» (opts : Options) (coins : List (List Bool)) (dir : Dir) : Except Fault DB := do
  let records := Wal.replay dir.wal
  let files ← openFiles dir (liveEntries dir)
  let ver := openVersion files
  .ok {
    dir := dir.execAll (openOps dir)
    opts := opts
    memtable := Memtable.fresh.applyAll records coins
    version := ver
    nextSst := nextNumber dir (liveEntries dir)
    nextSeq := openSeq records ver }

/-- Close and open again. `~DB` waits for the round in progress, and no call may be pending. -/
def reopen (db : DB) (opts : Options) (coins : List (List Bool)) : Option DB :=
  if db.inflight = [] ∧ db.job.isNone ∧ db.doomed = [] ∧ db.waiting = 0 then
    (DB.open opts coins db.dir).toOption
  else none

end DB

/-! ## Runs -/

/-- One step of a thread. -/
inductive Event where
  | assign (ops : List Op)
  | apply (coins : List (List Bool))
  | flush
  | maybeFlush
  | getSnapshot
  | releaseSnapshot (seq : UInt64)
  | compactCall
  | compactWake
  | pick (pq : SourceQueue)
  | startWriter
  | finishWriter
  | commit
  | unlink (number : Nat)
  | reopen (opts : Options) (coins : List (List Bool))

/-- What a step does; `none` if the thread cannot take it, or if it fails. -/
def DB.step (db : DB) : Event → Option DB
  | .assign ops => db.assign ops
  | .apply coins => db.apply coins
  | .flush => db.flush
  | .maybeFlush => db.maybeFlush
  | .getSnapshot => some db.getSnapshot
  | .releaseSnapshot seq => some (db.releaseSnapshot seq)
  | .compactCall => some db.compactCall
  | .compactWake => db.compactWake
  | .pick pq => db.pick pq
  | .startWriter => db.startWriter
  | .finishWriter => db.finishWriter
  | .commit => db.commit
  | .unlink number => db.unlink number
  | .reopen opts coins => db.reopen opts coins

/-- The whole sequence of steps. -/
def DB.run (db : DB) (evs : List Event) : Option DB := Steps.run DB.step db evs

/-- Every step of the run meets `P`, a condition on the state before the step. -/
def DB.Meets (P : DB → Event → Prop) (db : DB) (evs : List Event) : Prop :=
  Steps.Meets DB.step P db evs

instance (P : DB → Event → Prop) [∀ db ev, Decidable (P db ev)] (db : DB) (evs : List Event) :
    Decidable (DB.Meets P db evs) :=
  inferInstanceAs (Decidable (Steps.Meets DB.step P db evs))

/-- One client call: the batch is assigned and applied. -/
def callPut (key value : UInt8) : List Event := [.assign [putByte key value], .apply []]

/-- A whole call of `DB::write` without followers. -/
def writeCall (op : Op) : List Event := [.assign [op], .apply [], .maybeFlush]

/-- `DB::open` on a new directory. -/
def DB.create (opts : Options) : DB :=
  { dir := { wal := some [], manifest := some [] }, opts := opts }

theorem DB.openVersion_nil : DB.openVersion [] = .empty := by
  unfold DB.openVersion Version.empty
  congr 1
  funext l
  show (if 1 ≤ l then ([] : List FileMeta) else []) = []
  split <;> rfl

theorem DB.open_empty (opts : Options) (coins : List (List Bool)) :
    DB.open opts coins {} = .ok (DB.create opts) := by
  show Except.ok _ = _
  rw [DB.openVersion_nil]
  rfl

end Keystone
