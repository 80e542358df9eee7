/-
  The state of the engine is well formed in every run.

  * `TablesOk`: every live table, and every output of the round in progress, is a sound table
    under a number of its own, and its file is in the directory.
  * `LogOk`: the log replays to the memtable.
  * `ManifestOk`: the last snapshot of the MANIFEST is the current version.

  `DB.WellFormed` has the first two. This module has the step lemmas of every event but
  `reopen`, which is in `Keystone.Recovery`.
-/
import Keystone.EngineSteps
import Keystone.LiveFile

namespace Keystone

/-- Entries an output file may be made of. -/
structure ChunkOk (es : List Entry) : Prop where
  ne_nil : es ≠ []
  sorted : SortedLe es
  storable : ∀ e ∈ es, e.Storable

namespace Job

/-- The finished output files of the round in progress. -/
def outputsOf (job : Option Job) : List FileMeta := (job.map Job.outputs).getD []

/-- The number of its open writer. -/
def writerNumbers (job : Option Job) : List Nat :=
  ((job.bind Job.writer).map Prod.fst).toList

/-- The entry lists of the files it has still to finish. -/
def pieces (job : Option Job) : List (List Entry) :=
  ((job.bind Job.writer).map Prod.snd).toList ++ (job.map Job.chunks).getD []

/-- The files it merges. -/
def inputsOf (job : Option Job) : List FileMeta := (job.map fun j => j.job.inputs).getD []

end Job

/-- The numbers in use: of the live files, of the finished outputs and of the open writer. -/
def usedNumbers (ver : Version) (job : Option Job) : List Nat :=
  (ver.allFiles ++ Job.outputsOf job).map FileMeta.number ++ Job.writerNumbers job

/-- The tables of the state and the `.sst` files of the directory. -/
structure TablesOk (sst : List (Nat × Bytes)) (ver : Version) (nextSst : Nat)
    (doomed : List Nat) (job : Option Job) : Prop where
  sst_nodup : (sst.map Prod.fst).Nodup
  sst_lt : ∀ p ∈ sst, p.1 < nextSst
  next_lt : nextSst < 2 ^ 31
  level : ∀ l, ∀ fm ∈ ver.files l, fm.level = l
  ok : ∀ fm ∈ ver.allFiles ++ Job.outputsOf job, fm.Ok
  onDisk : ∀ fm ∈ ver.allFiles ++ Job.outputsOf job, (fm.number, tableFile fm.contents) ∈ sst
  outLevel : ∀ j, job = some j → ∀ fm ∈ j.outputs, fm.level = j.job.outputLevel
  nodup : (usedNumbers ver job).Nodup
  used_lt : ∀ n ∈ usedNumbers ver job, n < nextSst
  used_kept : ∀ n ∈ usedNumbers ver job, n ∉ doomed
  doomed_lt : ∀ n ∈ doomed, n < nextSst
  writer_new : ∀ n ∈ Job.writerNumbers job, n ∉ sst.map Prod.fst
  pieces : ∀ es ∈ Job.pieces job, ChunkOk es
  inputs : ∀ fm ∈ Job.inputsOf job, fm ∈ ver.allFiles

/-- The log is the memtable. -/
def LogOk (wal : Option Bytes) (mem : List Entry) : Prop :=
  ∃ records : List Wal.Record, wal = some (records.flatMap Wal.encodeRecord) ∧
    (∀ r ∈ records, r.Fits) ∧ mem.Perm (records.map Wal.Record.entry)

/-- The MANIFEST is a row of snapshots that ends with the files of the version (after a reopen
    in another order), and all of them meet `P`. -/
def ManifestEnds (P : List ManifestEntry → Prop) (manifest : Option Bytes) (ver : Version) : Prop :=
  ∃ (snaps : List (List ManifestEntry)) (files : List FileMeta),
    manifest = some (snaps.flatMap Manifest.encodeSnapshot) ∧
    files.Perm ver.allFiles ∧ snaps.getLastD [] = files.map FileMeta.manifestEntry ∧
    (∀ s ∈ snaps, Manifest.Fits s) ∧ ∀ s ∈ snaps, P s

/-- The reader takes every snapshot, except perhaps that of the version itself. -/
def ManifestOk (manifest : Option Bytes) (ver : Version) : Prop :=
  ManifestEnds (fun s => Manifest.ReaderOk s ∨ s = ver.toManifest) manifest ver

/-- The reader takes that snapshot too. -/
def ManifestRead (manifest : Option Bytes) (ver : Version) : Prop :=
  ManifestEnds Manifest.ReaderOk manifest ver

/-- The tables are sound, the log is the memtable, and the log takes the batch in flight. -/
structure DB.WellFormed (db : DB) : Prop where
  tables : TablesOk db.dir.sst db.version db.nextSst db.doomed db.job
  log : LogOk db.dir.wal db.memtable.entries
  inflight : ∀ r ∈ db.inflight, r.Fits

/-- The tables are sound, and so is what can still go into one. -/
structure DB.Stored (db : DB) : Prop where
  tables : TablesOk db.dir.sst db.version db.nextSst db.doomed db.job
  mem : ∀ e ∈ db.memtable.entries, e.Storable
  wal : db.dir.wal.isSome = true

/-! ## What the readers take -/

/-- The calls whose records a step prepares. -/
def Event.calls : Event → List Op
  | .assign ops => ops
  | _ => []

/-- The entry lists of the tables a step writes. -/
def DB.newTables (db : DB) : Event → List (List Entry)
  | .flush => [db.memtable.entries]
  | .maybeFlush =>
    if db.opts.flushThresholdBytes.toNat ≤ db.memtable.approxBytes then [db.memtable.entries] else []
  | .finishWriter => ((db.job.bind Job.writer).map Prod.snd).toList
  | _ => []

theorem DB.mem_newTables {db : DB} {ev : Event} {es : List Entry} (hes : es ∈ db.newTables ev) :
    es = db.memtable.entries ∨ es ∈ Job.pieces db.job := by
  cases ev with
  | flush => exact Or.inl (List.mem_singleton.1 hes)
  | maybeFlush =>
    simp only [DB.newTables] at hes
    split at hes
    · exact Or.inl (List.mem_singleton.1 hes)
    · exact absurd hes List.not_mem_nil
  | finishWriter => exact Or.inr (List.mem_append_left _ hes)
  | _ => exact absurd hes List.not_mem_nil

/-- The log admits every record of the batch. -/
def Event.LogFits (ev : Event) : Prop := ∀ op ∈ ev.calls, op.Fits

theorem Event.logFits_of_calls {ev : Event} (h : ev.calls = []) : ev.LogFits := by
  intro op hop
  rw [h] at hop
  exact absurd hop List.not_mem_nil

/-- Every block of a table the step writes can be read. -/
def DB.TablesFit (db : DB) (ev : Event) : Prop := ∀ es ∈ db.newTables ev, BlocksFit es

instance (ev : Event) : Decidable ev.LogFits :=
  inferInstanceAs (Decidable (∀ op ∈ ev.calls, op.Fits))

instance (db : DB) (ev : Event) : Decidable (db.TablesFit ev) :=
  inferInstanceAs (Decidable (∀ es ∈ db.newTables ev, BlocksFit es))

theorem DB.TablesFit.of_new {db : DB} {ev : Event} {es : List Entry} (h : db.TablesFit ev)
    (hnew : db.newTables ev = [es]) : BlocksFit es :=
  h es (hnew ▸ List.mem_singleton.2 rfl)

theorem DB.TablesFit.flush {db : DB} (h : db.TablesFit .flush) : BlocksFit db.memtable.entries :=
  h.of_new rfl

theorem DB.TablesFit.maybeFlush {db : DB} (h : db.TablesFit .maybeFlush)
    (ht : db.opts.flushThresholdBytes.toNat ≤ db.memtable.approxBytes) :
    BlocksFit db.memtable.entries :=
  h.of_new (if_pos ht)

/-- What the step writes is within the limits of the log and of the tables. -/
structure DB.Fits (db : DB) (ev : Event) : Prop where
  log : ev.LogFits
  tables : db.TablesFit ev

instance (db : DB) (ev : Event) : Decidable (db.Fits ev) :=
  decidable_of_iff (ev.LogFits ∧ db.TablesFit ev) ⟨fun h => ⟨h.1, h.2⟩, fun h => ⟨h.log, h.tables⟩⟩

/-! ## The log -/

theorem LogOk.storable {wal : Option Bytes} {mem : List Entry} (h : LogOk wal mem) :
    ∀ e ∈ mem, e.Storable := by
  obtain ⟨records, -, -, hp⟩ := h
  intro e he
  obtain ⟨r, -, rfl⟩ := List.mem_map.1 (hp.mem_iff.1 he)
  exact r.storable

theorem LogOk.append {wal : Option Bytes} {m : Memtable} (h : LogOk wal m.entries)
    {rs : List Wal.Record} (hf : ∀ r ∈ rs, r.Fits) (coins : List (List Bool)) :
    LogOk (some (Wal.appendBatch (wal.getD []) rs)) (m.applyAll rs coins).entries := by
  obtain ⟨records, rfl, hr, hp⟩ := h
  refine ⟨records ++ rs, ?_, ?_, ?_⟩
  · simp [Wal.appendBatch]
  · intro r hmem
    exact (List.mem_append.1 hmem).elim (hr r) (hf r)
  · refine (m.entries_applyAll rs coins).trans ?_
    rw [List.map_append]
    exact (hp.append_left _).trans List.perm_append_comm

theorem LogOk.nil : LogOk (some []) [] := ⟨[], rfl, by simp, List.Perm.refl _⟩

theorem DB.WellFormed.stored {db : DB} (hw : db.WellFormed) : db.Stored where
  tables := hw.tables
  mem := hw.log.storable
  wal := by
    obtain ⟨records, hwal, -⟩ := hw.log
    rw [hwal]
    rfl

/-! ## The MANIFEST -/

theorem toManifest_fits {ver : Version} (h : ∀ fm ∈ ver.allFiles, fm.Ok) :
    Manifest.Fits ver.toManifest := by
  intro entry hentry
  obtain ⟨fm, hfm, rfl⟩ := List.mem_map.1 hentry
  have hok := h fm hfm
  obtain ⟨e, he, hk⟩ := headKey_mem hok.ne_nil
  obtain ⟨e', he', hk'⟩ := lastKey_mem hok.ne_nil
  show fm.smallestKey.length < 2 ^ 32 ∧ fm.largestKey.length < 2 ^ 32
  rw [hok.smallest, hok.largest, ← hk, ← hk']
  exact ⟨(hok.fits.entry_fits he).1, (hok.fits.entry_fits he').1⟩

theorem ManifestOk.read {manifest : Option Bytes} {ver : Version} (h : ManifestOk manifest ver)
    (hread : Manifest.ReaderOk ver.toManifest) : ManifestRead manifest ver := by
  obtain ⟨snaps, files, hman, hperm, hlast, hfit, hok⟩ := h
  exact ⟨snaps, files, hman, hperm, hlast, hfit, fun s hs => (hok s hs).elim id fun e => e ▸ hread⟩

theorem ManifestRead.ok {manifest : Option Bytes} {ver : Version} (h : ManifestRead manifest ver) :
    ManifestOk manifest ver := by
  obtain ⟨snaps, files, hman, hperm, hlast, hfit, hok⟩ := h
  exact ⟨snaps, files, hman, hperm, hlast, hfit, fun s hs => Or.inl (hok s hs)⟩

/-- Another snapshot on a MANIFEST that is readable so far. -/
theorem ManifestRead.append {manifest : Option Bytes} {ver ver' : Version}
    (h : ManifestRead manifest ver) (hok : ∀ fm ∈ ver'.allFiles, fm.Ok) :
    ManifestOk (Manifest.appendSnapshot manifest ver'.toManifest) ver' := by
  obtain ⟨snaps, -, rfl, -, -, hf, hr⟩ := h
  refine ⟨snaps ++ [ver'.toManifest], ver'.allFiles, ?_, List.Perm.refl _, ?_, ?_, ?_⟩
  · simp [Manifest.appendSnapshot]
  · simp [Version.toManifest]
  · intro s hs
    rcases List.mem_append.1 hs with hs | hs
    · exact hf s hs
    · rw [List.mem_singleton.1 hs]
      exact toManifest_fits hok
  · intro s hs
    rcases List.mem_append.1 hs with hs | hs
    · exact Or.inl (hr s hs)
    · exact Or.inr (List.mem_singleton.1 hs)

/-! ## The tables -/

/-- Removing a file that is not there. -/
theorem filter_number_ne {sst : List (Nat × Bytes)} {n : Nat} (hn : n ∉ sst.map Prod.fst) :
    (sst.filter fun p => p.1 ≠ n) = sst := by
  rw [List.filter_eq_self]
  intro p hp
  rw [decide_eq_true_eq]
  rintro rfl
  exact hn (List.mem_map_of_mem hp)

namespace TablesOk

variable {sst : List (Nat × Bytes)} {ver : Version} {nextSst : Nat} {doomed : List Nat}
  {job : Option Job}

theorem next_new (h : TablesOk sst ver nextSst doomed job) : nextSst ∉ sst.map Prod.fst := by
  intro hmem
  obtain ⟨p, hp, he⟩ := List.mem_map.1 hmem
  exact absurd (h.sst_lt p hp) (by omega)

theorem usedNumbers_pushL0 (ver : Version) (job : Option Job) (fm : FileMeta) :
    (usedNumbers (ver.pushL0 fm) job).Perm (fm.number :: usedNumbers ver job) := by
  have h := ((allFiles_pushL0 ver fm).append_right (Job.outputsOf job)).map FileMeta.number
  refine (h.append_right (Job.writerNumbers job)).trans ?_
  simp only [usedNumbers, List.map_append, List.map_cons, List.append_assoc,
    List.cons_append, List.nil_append]
  exact List.perm_middle

/-- `flush` installs a table of its own number and puts it into L0. -/
theorem flush (h : TablesOk sst ver nextSst doomed job) (hlt : nextSst < 2 ^ 31 - 1)
    {fm : FileMeta} (hok : fm.Ok) (hnum : fm.number = nextSst) (hlev : fm.level = 0) :
    TablesOk ((nextSst, tableFile fm.contents) :: sst) (ver.pushL0 fm) (nextSst + 1) doomed job := by
  have hmem : ∀ f ∈ (ver.pushL0 fm).allFiles ++ Job.outputsOf job,
      f = fm ∨ f ∈ ver.allFiles ++ Job.outputsOf job := by
    intro f hf
    rw [List.mem_append, (allFiles_pushL0 ver fm).mem_iff] at hf
    simp only [List.mem_append, List.mem_singleton] at hf ⊢
    tauto
  have hused : ∀ n ∈ usedNumbers (ver.pushL0 fm) job, n = nextSst ∨ n ∈ usedNumbers ver job := by
    intro n hn
    rw [(usedNumbers_pushL0 ver job fm).mem_iff, List.mem_cons, hnum] at hn
    exact hn
  have hnew : nextSst ∉ usedNumbers ver job := fun hn => absurd (h.used_lt _ hn) (lt_irrefl _)
  constructor
  · exact List.nodup_cons.2 ⟨h.next_new, h.sst_nodup⟩
  · intro p hp
    rcases List.mem_cons.1 hp with rfl | hp
    · exact Nat.lt_succ_self _
    · exact Nat.lt_succ_of_lt (h.sst_lt p hp)
  · omega
  · intro l f hf
    by_cases hl : l = 0
    · subst hl
      simp only [Version.pushL0, if_true, List.mem_append, List.mem_singleton] at hf
      rcases hf with hf | rfl
      · exact h.level 0 f hf
      · exact hlev
    · simp only [Version.pushL0, if_neg hl] at hf
      exact h.level l f hf
  · intro f hf
    rcases hmem f hf with rfl | hf
    · exact hok
    · exact h.ok f hf
  · intro f hf
    rcases hmem f hf with rfl | hf
    · rw [hnum]
      exact List.mem_cons_self
    · exact List.mem_cons_of_mem _ (h.onDisk f hf)
  · exact h.outLevel
  · rw [(usedNumbers_pushL0 ver job fm).nodup_iff, hnum]
    exact List.nodup_cons.2 ⟨hnew, h.nodup⟩
  · intro n hn
    rcases hused n hn with rfl | hn
    · exact Nat.lt_succ_self _
    · exact Nat.lt_succ_of_lt (h.used_lt n hn)
  · intro n hn
    rcases hused n hn with rfl | hn
    · exact fun hd => absurd (h.doomed_lt _ hd) (lt_irrefl _)
    · exact h.used_kept n hn
  · exact fun n hn => Nat.lt_succ_of_lt (h.doomed_lt n hn)
  · intro n hn hmem
    have hlt := h.used_lt n (List.mem_append_right _ hn)
    rcases List.mem_cons.1 hmem with he | hmem
    · exact absurd (he : n = nextSst) (by omega)
    · exact h.writer_new n hn hmem
  · exact h.pieces
  · intro f hf
    rw [(allFiles_pushL0 ver fm).mem_iff]
    exact List.mem_append_left _ (h.inputs f hf)

/-- A round is picked. -/
theorem pick (h : TablesOk sst ver nextSst doomed none) {job : CompactionJob}
    {chunks : List (List Entry)} (hin : ∀ fm ∈ job.inputs, fm ∈ ver.allFiles)
    (hc : ∀ es ∈ chunks, ChunkOk es) :
    TablesOk sst ver nextSst doomed (some ⟨job, chunks, none, []⟩) where
  sst_nodup := h.sst_nodup
  sst_lt := h.sst_lt
  next_lt := h.next_lt
  level := h.level
  ok := h.ok
  onDisk := h.onDisk
  outLevel := by
    rintro j hj fm hfm
    obtain rfl := Option.some.inj hj
    simp at hfm
  nodup := h.nodup
  used_lt := h.used_lt
  used_kept := h.used_kept
  doomed_lt := h.doomed_lt
  writer_new := h.writer_new
  pieces := hc
  inputs := hin

/-- The next output file is begun. -/
theorem startWriter {job : CompactionJob} {chunk : List Entry} {chunks : List (List Entry)}
    {outputs : List FileMeta}
    (h : TablesOk sst ver nextSst doomed (some ⟨job, chunk :: chunks, none, outputs⟩))
    (hlt : nextSst < 2 ^ 31 - 1) :
    TablesOk sst ver (nextSst + 1) doomed (some ⟨job, chunks, some (nextSst, chunk), outputs⟩) := by
  have hused : usedNumbers ver (some ⟨job, chunks, some (nextSst, chunk), outputs⟩) =
      usedNumbers ver (some ⟨job, chunk :: chunks, none, outputs⟩) ++ [nextSst] := by
    simp [usedNumbers, Job.writerNumbers, Job.outputsOf]
  have hnew : nextSst ∉ usedNumbers ver (some ⟨job, chunk :: chunks, none, outputs⟩) :=
    fun hn => absurd (h.used_lt _ hn) (lt_irrefl _)
  constructor
  · exact h.sst_nodup
  · exact fun p hp => Nat.lt_succ_of_lt (h.sst_lt p hp)
  · omega
  · exact h.level
  · exact h.ok
  · exact h.onDisk
  · rintro j hj fm hfm
    obtain rfl := Option.some.inj hj
    exact h.outLevel _ rfl fm hfm
  · rw [hused, List.nodup_append]
    refine ⟨h.nodup, List.nodup_singleton _, ?_⟩
    rintro a ha b hb rfl
    exact hnew (List.mem_singleton.1 hb ▸ ha)
  · intro n hn
    rw [hused, List.mem_append, List.mem_singleton] at hn
    rcases hn with hn | rfl
    · exact Nat.lt_succ_of_lt (h.used_lt n hn)
    · exact Nat.lt_succ_self _
  · intro n hn
    rw [hused, List.mem_append, List.mem_singleton] at hn
    rcases hn with hn | rfl
    · exact h.used_kept n hn
    · exact fun hd => absurd (h.doomed_lt _ hd) (lt_irrefl _)
  · exact fun n hn => Nat.lt_succ_of_lt (h.doomed_lt n hn)
  · intro n hn
    simp only [Job.writerNumbers, Option.bind_some, Option.map_some, Option.toList_some,
      List.mem_singleton] at hn
    rw [hn]
    exact h.next_new
  · exact h.pieces
  · exact h.inputs

/-- The open output file is finished and installed. -/
theorem finishWriter {job : CompactionJob} {number : Nat} {chunks : List (List Entry)}
    {outputs : List FileMeta} {fm : FileMeta}
    (h : TablesOk sst ver nextSst doomed (some ⟨job, chunks, some (number, fm.contents), outputs⟩))
    (hok : fm.Ok) (hnum : fm.number = number) (hlev : fm.level = job.outputLevel) :
    TablesOk ((number, tableFile fm.contents) :: sst) ver nextSst doomed
      (some ⟨job, chunks, none, outputs ++ [fm]⟩) := by
  have hused : usedNumbers ver (some ⟨job, chunks, none, outputs ++ [fm]⟩) =
      usedNumbers ver (some ⟨job, chunks, some (number, fm.contents), outputs⟩) := by
    simp [usedNumbers, Job.writerNumbers, Job.outputsOf, hnum]
  have hmem : ∀ f ∈ ver.allFiles ++ (outputs ++ [fm]), f = fm ∨ f ∈ ver.allFiles ++ outputs := by
    intro f hf
    simp only [List.mem_append, List.mem_singleton] at hf ⊢
    tauto
  have hwriter : number ∈ Job.writerNumbers (some ⟨job, chunks, some (number, fm.contents), outputs⟩) := by
    simp [Job.writerNumbers]
  have hnew : number ∉ sst.map Prod.fst := h.writer_new number hwriter
  constructor
  · exact List.nodup_cons.2 ⟨hnew, h.sst_nodup⟩
  · intro p hp
    rcases List.mem_cons.1 hp with rfl | hp
    · exact h.used_lt number (List.mem_append_right _ hwriter)
    · exact h.sst_lt p hp
  · exact h.next_lt
  · exact h.level
  · intro f hf
    rcases hmem f hf with rfl | hf
    · exact hok
    · exact h.ok f hf
  · intro f hf
    rcases hmem f hf with rfl | hf
    · rw [hnum]
      exact List.mem_cons_self
    · exact List.mem_cons_of_mem _ (h.onDisk f hf)
  · rintro j hj f hf
    obtain rfl := Option.some.inj hj
    rcases List.mem_append.1 hf with hf | hf
    · exact h.outLevel _ rfl f hf
    · rw [List.mem_singleton.1 hf]
      exact hlev
  · rw [hused]
    exact h.nodup
  · rw [hused]
    exact h.used_lt
  · rw [hused]
    exact h.used_kept
  · exact h.doomed_lt
  · simp [Job.writerNumbers]
  · exact fun es hes => h.pieces es (List.mem_append_right _ hes)
  · exact h.inputs

/-- A round without output changes nothing. -/
theorem discard {job : CompactionJob} {chunks : List (List Entry)}
    (h : TablesOk sst ver nextSst doomed (some ⟨job, chunks, none, []⟩)) :
    TablesOk sst ver nextSst doomed none where
  sst_nodup := h.sst_nodup
  sst_lt := h.sst_lt
  next_lt := h.next_lt
  level := h.level
  ok := h.ok
  onDisk := h.onDisk
  outLevel := by simp
  nodup := h.nodup
  used_lt := h.used_lt
  used_kept := h.used_kept
  doomed_lt := h.doomed_lt
  writer_new := h.writer_new
  pieces := by simp [Job.pieces]
  inputs := by simp [Job.inputsOf]

/-- Outputs have other numbers than live files. -/
theorem outputs_new {job : CompactionJob} {chunks : List (List Entry)}
    {writer : Option (Nat × List Entry)} {outputs : List FileMeta}
    (h : TablesOk sst ver nextSst doomed (some ⟨job, chunks, writer, outputs⟩)) :
    ∀ fm ∈ outputs, fm.number ∉ ver.allFiles.map FileMeta.number := by
  intro fm hfm hmem
  have hnd := (List.nodup_append.1 h.nodup).1
  rw [List.map_append, List.nodup_append] at hnd
  exact hnd.2.2 _ hmem _ (List.mem_map_of_mem hfm) rfl

/-- The commit: the outputs are live now, and the inputs are to be unlinked. -/
theorem commit {job : CompactionJob} {outputs : List FileMeta}
    (h : TablesOk sst ver nextSst doomed (some ⟨job, [], none, outputs⟩)) :
    TablesOk sst (commitVersion ver job outputs) nextSst
      (doomed ++ job.inputs.map FileMeta.number) none := by
  have hperm := allFiles_commit ver job outputs
  have hsub : (job.remaining ver.allFiles ++ outputs).Sublist (ver.allFiles ++ outputs) :=
    (remaining_sublist job _).append_right outputs
  have hmem : ∀ f ∈ (commitVersion ver job outputs).allFiles ++ Job.outputsOf none,
      f ∈ ver.allFiles ++ outputs := by
    intro f hf
    simp only [Job.outputsOf, Option.map_none, Option.getD_none, List.append_nil] at hf
    exact hsub.subset (hperm.mem_iff.1 hf)
  have hused : ∀ n ∈ usedNumbers (commitVersion ver job outputs) none,
      n ∈ usedNumbers ver (some ⟨job, [], none, outputs⟩) := by
    intro n hn
    simp only [usedNumbers, Job.writerNumbers, Option.bind_none, Option.map_none,
      Option.toList_none, List.append_nil] at hn
    obtain ⟨f, hf, rfl⟩ := List.mem_map.1 hn
    exact List.mem_append_left _ (List.mem_map_of_mem (hmem f hf))
  have hin : ∀ n ∈ job.inputs.map FileMeta.number, n ∈ ver.allFiles.map FileMeta.number := by
    intro n hn
    obtain ⟨f, hf, rfl⟩ := List.mem_map.1 hn
    exact List.mem_map_of_mem (h.inputs f hf)
  constructor
  · exact h.sst_nodup
  · exact h.sst_lt
  · exact h.next_lt
  · intro l f hf
    rcases mem_files_commit.1 hf with ⟨hold, -⟩ | ⟨rfl, hout⟩
    · exact h.level l f hold
    · exact h.outLevel _ rfl f hout
  · exact fun f hf => h.ok f (hmem f hf)
  · exact fun f hf => h.onDisk f (hmem f hf)
  · simp
  · have hnd := (List.nodup_append.1 h.nodup).1
    have := (hperm.map FileMeta.number).nodup_iff.2 ((hsub.map FileMeta.number).nodup hnd)
    simpa [usedNumbers, Job.outputsOf, Job.writerNumbers] using this
  · exact fun n hn => h.used_lt n (hused n hn)
  · intro n hn hd
    rcases List.mem_append.1 hd with hd | hd
    · exact h.used_kept n (hused n hn) hd
    · simp only [usedNumbers, Job.outputsOf, Job.writerNumbers, Option.map_none, Option.getD_none,
        List.append_nil, Option.bind_none, Option.toList_none] at hn
      obtain ⟨f, hf, rfl⟩ := List.mem_map.1 hn
      rcases List.mem_append.1 (hperm.mem_iff.1 hf) with hf | hf
      · exact (mem_remaining.1 hf).2 hd
      · exact h.outputs_new f hf (hin _ hd)
  · intro n hn
    rcases List.mem_append.1 hn with hn | hn
    · exact h.doomed_lt n hn
    · refine h.used_lt n (List.mem_append_left _ ?_)
      rw [List.map_append]
      exact List.mem_append_left _ (hin n hn)
  · simp [Job.writerNumbers]
  · simp [Job.pieces]
  · simp [Job.inputsOf]

/-- The file of an input goes away. -/
theorem unlink (h : TablesOk sst ver nextSst doomed job) {n : Nat} (hn : n ∈ doomed) :
    TablesOk (sst.filter fun p => p.1 ≠ n) ver nextSst (doomed.filter fun m => m ≠ n) job where
  sst_nodup := h.sst_nodup.sublist (List.filter_sublist.map Prod.fst)
  sst_lt := fun p hp => h.sst_lt p (List.mem_filter.1 hp).1
  next_lt := h.next_lt
  level := h.level
  ok := h.ok
  onDisk := by
    intro fm hfm
    refine List.mem_filter.2 ⟨h.onDisk fm hfm, decide_eq_true ?_⟩
    rintro rfl
    exact h.used_kept _ (List.mem_append_left _ (List.mem_map_of_mem hfm)) hn
  outLevel := h.outLevel
  nodup := h.nodup
  used_lt := h.used_lt
  used_kept := fun m hm hd => h.used_kept m hm (List.mem_filter.1 hd).1
  doomed_lt := fun m hm => h.doomed_lt m (List.mem_filter.1 hm).1
  writer_new := by
    intro m hm hmem
    obtain ⟨p, hp, rfl⟩ := List.mem_map.1 hmem
    exact h.writer_new _ hm (List.mem_map_of_mem (List.mem_filter.1 hp).1)
  pieces := h.pieces
  inputs := h.inputs

end TablesOk

/-! ## Rounds -/

theorem mapM_ok {α β ε : Type} {f : α → Except ε β} {g : α → β} {l : List α}
    (h : ∀ a ∈ l, f a = .ok (g a)) : l.mapM f = .ok (l.map g) := by
  induction l with
  | nil => rfl
  | cons a l ih =>
    rw [List.mapM_cons, ih fun b hb => h b (List.mem_cons_of_mem a hb), h a List.mem_cons_self]
    rfl

theorem readInputs_eq {inputs : List FileMeta} (h : ∀ fm ∈ inputs, fm.Ok) :
    DB.readInputs inputs = .ok (inputs.map FileMeta.contents) :=
  mapM_ok fun fm hfm => (h fm hfm).entries

theorem mapM_inv {α β ε : Type} {f : α → Except ε β} {l : List α} {bs : List β}
    (h : l.mapM f = .ok bs) : List.Forall₂ (fun a b => f a = .ok b) l bs := by
  induction l generalizing bs with
  | nil =>
    obtain rfl := Except.ok.inj h
    exact List.Forall₂.nil
  | cons a l ih =>
    rw [List.mapM_cons] at h
    obtain ⟨b, hb, h⟩ := bind_eq_ok h
    obtain ⟨bs', hbs, h⟩ := bind_eq_ok h
    obtain rfl := Except.ok.inj h
    exact List.Forall₂.cons hb (ih hbs)

/-- What a round reads is what its inputs hold. -/
theorem readInputs_inv {inputs : List FileMeta} {sources : List (List Entry)}
    (h : DB.readInputs inputs = .ok sources) :
    sources = inputs.map FileMeta.contents ∧
      ∀ fm ∈ inputs, fm.table.entries = .ok fm.contents := by
  have hcont : ∀ {fm : FileMeta} {es : List Entry}, fm.table.entries = .ok es →
      fm.contents = es := fun he => by simp only [FileMeta.contents, he]
  have hall := mapM_inv h
  clear h
  induction hall with
  | nil => exact ⟨rfl, by simp⟩
  | cons he _ ih =>
    refine ⟨by rw [List.map_cons, ← ih.1, hcont he], fun fm hfm => ?_⟩
    rcases List.mem_cons.1 hfm with rfl | hfm
    · rw [he, hcont he]
    · exact ih.2 fm hfm

/-- The stream a round merges. -/
def roundStream (pq : SourceQueue) (inputs : List FileMeta) : List Entry :=
  mergeVersions pq (inputs.map FileMeta.contents)

theorem mem_roundStream {pq : SourceQueue} {inputs : List FileMeta} {e : Entry} :
    e ∈ roundStream pq inputs ↔ ∃ fm ∈ inputs, e ∈ fm.contents := by
  rw [roundStream, (mergeVersions_perm pq _).mem_iff, List.mem_flatten]
  simp

theorem sorted_roundStream {pq : SourceQueue} {inputs : List FileMeta}
    (h : ∀ fm ∈ inputs, fm.Ok) : SortedLe (roundStream pq inputs) := by
  refine mergeVersions_sorted pq fun l hl => ?_
  obtain ⟨fm, hfm, rfl⟩ := List.mem_map.1 hl
  exact (h fm hfm).sorted

theorem flatten_mergeOutputs (oldestSnap : UInt64) (isBottommost : Bool) (target : Nat)
    (stream : List Entry) : (mergeOutputs oldestSnap isBottommost target stream).flatten =
      retain oldestSnap isBottommost ⟨[], false⟩ stream := by
  rw [mergeOutputs_eq, flatten_splitFiles, List.nil_append]

/-- Every entry a round writes is one that it has read. -/
theorem mem_mergeOutputs {oldestSnap : UInt64} {isBottommost : Bool} {target : Nat}
    {pq : SourceQueue} {inputs : List FileMeta} {sources : List (List Entry)}
    (hread : DB.readInputs inputs = .ok sources) {es : List Entry}
    (hes : es ∈ mergeOutputs oldestSnap isBottommost target (mergeVersions pq sources)) {e : Entry}
    (he : e ∈ es) : ∃ fm ∈ inputs, fm.table.entries = .ok fm.contents ∧ e ∈ fm.contents := by
  have hmem : e ∈ mergeVersions pq sources := by
    refine (retain_sublist oldestSnap isBottommost ⟨[], false⟩ _).subset ?_
    rw [← flatten_mergeOutputs oldestSnap isBottommost target]
    exact List.mem_flatten.2 ⟨es, hes, he⟩
  obtain ⟨rfl, hentries⟩ := readInputs_inv hread
  obtain ⟨fm, hfm, he⟩ := mem_roundStream.1 hmem
  exact ⟨fm, hfm, hentries fm hfm, he⟩

/-- The files of a round are nonempty and sorted, and hold only merged entries. -/
theorem mergeOutputs_chunks {oldestSnap : UInt64} {isBottommost : Bool} {target : Nat}
    {stream : List Entry} (hs : SortedLe stream) (hst : ∀ e ∈ stream, e.Storable) :
    ∀ es ∈ mergeOutputs oldestSnap isBottommost target stream, ChunkOk es := by
  have hflat := flatten_mergeOutputs oldestSnap isBottommost target stream
  have hsub := retain_sublist oldestSnap isBottommost ⟨[], false⟩ stream
  intro es hes
  have hsub' : es.Sublist stream := by
    refine List.Sublist.trans ?_ hsub
    rw [← hflat]
    exact List.sublist_flatten_of_mem hes
  refine ⟨?_, List.Pairwise.sublist hsub' hs, fun e he => hst e (hsub'.subset he)⟩
  rw [mergeOutputs_eq] at hes
  exact splitFiles_ne_nil hes

/-! ## What each step does -/

namespace DB

variable {db db' : DB}

/-- A flush of an empty memtable does nothing; any other makes a file of its entries. -/
theorem flush_inv (hw : db.Stored) (hfit : BlocksFit db.memtable.entries)
    (h : db.flush = some db') :
    (db.memtable.entries = [] ∧ db' = db) ∨
    (db.nextSst < 2 ^ 31 - 1 ∧ ∃ fm : FileMeta, fm.Ok ∧ fm.number = db.nextSst ∧ fm.level = 0 ∧
      fm.contents = db.memtable.entries ∧ db' = { db with
        nextSst := db.nextSst + 1
        dir := {
          wal := some []
          manifest := Manifest.appendSnapshot db.dir.manifest (db.version.pushL0 fm).toManifest
          sst := (db.nextSst, tableFile fm.contents) :: db.dir.sst
          tmp := (db.nextSst :: db.dir.tmp.filter (· ≠ db.nextSst)).filter (· ≠ db.nextSst) }
        version := db.version.pushL0 fm
        memtable := .fresh
        compactionPending := db.compactionPending ||
          (db.opts.compactionTrigger.toNat ≤ ((db.version.pushL0 fm).files 0).length &&
            db.job.isNone) }) := by
  rcases flush_shape h with ⟨hz, rfl⟩ | ⟨hz, hlt, file, fm, hbuild, rfl⟩
  · exact Or.inl ⟨(Memtable.approxBytes_eq_zero _).1 hz, rfl⟩
  · have hne : db.memtable.entries ≠ [] := mt (Memtable.approxBytes_eq_zero _).2 hz
    obtain ⟨rfl, hnum, hlev, hcont, hok⟩ :=
      buildTable_spec hne (Memtable.sortedLe_entries _) hw.mem hfit hbuild
    refine Or.inr ⟨hlt, fm, hok, hnum, hlev, hcont, ?_⟩
    obtain ⟨log, hwal⟩ := Option.isSome_iff_exists.1 hw.wal
    simp only [Dir.execAll, Dir.exec, flushOps, List.foldl_cons, List.foldl_nil, hwal, hcont,
      filter_number_ne hw.tables.next_new, Option.map_some, Option.getD_some, List.take_zero,
      Nat.zero_sub, List.replicate_zero, List.append_nil]

/-- Either there is nothing to merge, or the merge of the chosen files begins. -/
theorem pick_inv {pq : SourceQueue} (hw : db.Stored) (h : db.pick pq = some db') :
    db.job = none ∧
      ((pickCompaction db.opts db.forceCompact db.version).inputs = [] ∧
        db' = { db with compactionPending := false } ∨
      (pickCompaction db.opts db.forceCompact db.version).inputs ≠ [] ∧
        db' = { db with
          compactionPending := false
          job := some ⟨pickCompaction db.opts db.forceCompact db.version,
            mergeOutputs db.oldestLiveSnapshot
              (pickCompaction db.opts db.forceCompact db.version).isBottommost
              db.opts.targetFileSize.toNat
              (roundStream pq (pickCompaction db.opts db.forceCompact db.version).inputs),
            none, []⟩ }) := by
  obtain ⟨-, hj, h⟩ := pick_shape h
  refine ⟨hj, h.imp_right ?_⟩
  rintro ⟨hin, sources, hread, rfl⟩
  rw [readInputs_eq fun fm hfm => hw.tables.ok fm
    (List.mem_append_left _ (pickCompaction_inputs _ _ _ fm hfm))] at hread
  obtain rfl := Except.ok.inj hread
  exact ⟨hin, rfl⟩

theorem finishWriter_inv (hw : db.Stored) (hfit : db.TablesFit .finishWriter)
    (h : db.finishWriter = some db') :
    ∃ job chunks outputs, ∃ fm : FileMeta,
      db.job = some ⟨job, chunks, some (fm.number, fm.contents), outputs⟩ ∧ fm.Ok ∧
      fm.level = job.outputLevel ∧ db' = { db with
        dir := { db.dir with
          sst := (fm.number, tableFile fm.contents) :: db.dir.sst
          tmp := db.dir.tmp.filter (· ≠ fm.number) }
        job := some ⟨job, chunks, none, outputs ++ [fm]⟩ } := by
  obtain ⟨job, chunks, number, chunk, outputs, file, fm, hj, hbuild, rfl⟩ := finishWriter_shape h
  have ht := hj ▸ hw.tables
  have hc : ChunkOk chunk := ht.pieces chunk (by simp [Job.pieces])
  have hblocks : BlocksFit chunk := hfit chunk (by simp [newTables, hj])
  obtain ⟨rfl, rfl, hlev, rfl, hok⟩ :=
    buildTable_spec hc.ne_nil hc.sorted hc.storable hblocks hbuild
  refine ⟨job, chunks, outputs, fm, hj, hok, hlev, ?_⟩
  have hnew : fm.number ∉ db.dir.sst.map Prod.fst :=
    ht.writer_new fm.number (by simp [Job.writerNumbers])
  simp only [Dir.execAll, Dir.exec, List.foldl_cons, List.foldl_nil, filter_number_ne hnew]

end DB

/-! ## Well-formedness is kept -/

namespace DB.Stored

variable {db db' : DB}

theorem okFiles (hw : db.Stored) : ∀ fm ∈ db.version.allFiles, fm.Ok :=
  fun fm hfm => hw.tables.ok fm (List.mem_append_left _ hfm)

/-- Steps that change neither the tables nor the memtable. -/
theorem same (hw : db.Stored) (ht : TablesOk db'.dir.sst db'.version db'.nextSst db'.doomed db'.job)
    (hm : db'.memtable = db.memtable) (hwal : db'.dir.wal = db.dir.wal) : db'.Stored :=
  ⟨ht, hm ▸ hw.mem, hwal ▸ hw.wal⟩

theorem apply (hw : db.Stored) {coins : List (List Bool)} (h : db.apply coins = some db') :
    db'.Stored := by
  obtain ⟨-, rfl⟩ := apply_inv h
  refine ⟨hw.tables, fun e he => ?_, rfl⟩
  rcases Memtable.mem_applyAll.1 he with ⟨r, -, rfl⟩ | he
  · exact r.storable
  · exact hw.mem e he

theorem flush (hw : db.Stored) (hfit : BlocksFit db.memtable.entries) (h : db.flush = some db') :
    db'.Stored := by
  rcases flush_inv hw hfit h with ⟨-, rfl⟩ | ⟨hlt, fm, hok, hnum, hlev, -, rfl⟩
  · exact hw
  · refine ⟨hw.tables.flush hlt hok hnum hlev, ?_, rfl⟩
    show ∀ e ∈ Memtable.fresh.entries, e.Storable
    rw [Memtable.entries_fresh]
    simp

theorem pick (hw : db.Stored) {pq : SourceQueue} (h : db.pick pq = some db') : db'.Stored := by
  obtain ⟨hj, h⟩ := pick_inv hw h
  rcases h with ⟨-, rfl⟩ | ⟨-, rfl⟩
  · exact hw.same hw.tables rfl rfl
  · have hin := pickCompaction_inputs db.opts db.forceCompact db.version
    have hok : ∀ fm ∈ (pickCompaction db.opts db.forceCompact db.version).inputs, fm.Ok :=
      fun fm hfm => hw.okFiles fm (hin fm hfm)
    have ht : TablesOk db.dir.sst db.version db.nextSst db.doomed none := hj ▸ hw.tables
    refine hw.same (ht.pick hin (mergeOutputs_chunks (sorted_roundStream hok) fun e he => ?_))
      rfl rfl
    obtain ⟨fm, hfm, he⟩ := mem_roundStream.1 he
    exact (hok fm hfm).storable e he

/-- Every step but `reopen`. -/
theorem step (hw : db.Stored) {ev : Event} (hev : ∀ opts coins, ev ≠ .reopen opts coins)
    (hfit : db.TablesFit ev) (h : db.step ev = some db') : db'.Stored := by
  cases ev with
  | assign ops =>
    obtain ⟨-, -, rfl⟩ := assign_inv h
    exact hw.same hw.tables rfl rfl
  | apply coins => exact hw.apply h
  | flush => exact hw.flush hfit.flush h
  | maybeFlush =>
    rcases maybeFlush_inv h with ⟨ht, h⟩ | ⟨-, rfl⟩
    · exact hw.flush (hfit.maybeFlush ht) h
    · exact hw
  | getSnapshot | releaseSnapshot _ | compactCall | compactWake =>
    obtain ⟨_, _, _, _, rfl⟩ := calls_shape rfl h
    exact hw.same hw.tables rfl rfl
  | pick pq => exact hw.pick h
  | startWriter =>
    obtain ⟨job, chunk, chunks, outputs, hj, hlt, rfl⟩ := startWriter_inv h
    exact hw.same ((hj ▸ hw.tables).startWriter hlt) rfl rfl
  | finishWriter =>
    obtain ⟨job, chunks, outputs, fm, hj, hok, hlev, rfl⟩ := finishWriter_inv hw hfit h
    exact hw.same ((hj ▸ hw.tables).finishWriter hok rfl hlev) rfl rfl
  | commit =>
    obtain ⟨job, outputs, hj, ⟨rfl, rfl⟩ | ⟨-, rfl⟩⟩ := commit_inv h
    · exact hw.same (hj ▸ hw.tables).discard rfl rfl
    · exact hw.same (hj ▸ hw.tables).commit rfl rfl
  | unlink number =>
    obtain ⟨hn, rfl⟩ := unlink_inv h
    exact hw.same (hw.tables.unlink hn) rfl rfl
  | reopen opts coins => exact absurd rfl (hev opts coins)

end DB.Stored

namespace DB.WellFormed

variable {db db' : DB}

theorem okFiles (hw : db.WellFormed) : ∀ fm ∈ db.version.allFiles, fm.Ok := hw.stored.okFiles

/-- After a flush the log and the memtable are empty, or nothing has changed. -/
theorem log_flush (hw : db.WellFormed) (hfit : BlocksFit db.memtable.entries)
    (h : db.flush = some db') : LogOk db'.dir.wal db'.memtable.entries := by
  rcases flush_inv hw.stored hfit h with ⟨-, rfl⟩ | ⟨-, fm, -, -, -, -, rfl⟩
  · exact hw.log
  · show LogOk (some []) Memtable.fresh.entries
    rw [Memtable.entries_fresh]
    exact LogOk.nil

/-- Every step but `reopen` keeps the state well formed. -/
theorem step (hw : db.WellFormed) {ev : Event}
    (hev : ∀ opts coins, ev ≠ .reopen opts coins) (hfit : db.Fits ev)
    (h : db.step ev = some db') : db'.WellFormed := by
  have hframe := DB.step_frame h
  refine ⟨(hw.stored.step hev hfit.tables h).tables, ?_, ?_⟩
  · cases ev with
    | apply coins =>
      obtain ⟨-, rfl⟩ := apply_inv h
      exact hw.log.append hw.inflight coins
    | flush => exact hw.log_flush hfit.tables.flush h
    | maybeFlush =>
      rcases maybeFlush_inv h with ⟨ht, h⟩ | ⟨-, rfl⟩
      · exact hw.log_flush (hfit.tables.maybeFlush ht) h
      · exact hw.log
    | reopen opts coins => exact absurd rfl (hev opts coins)
    | _ =>
      obtain ⟨hmem, hwal⟩ := hframe.log rfl
      rw [hmem, hwal]
      exact hw.log
  · cases ev with
    | assign ops =>
      obtain ⟨-, -, rfl⟩ := assign_inv h
      exact batchRecords_fits hfit.log
    | apply coins =>
      obtain ⟨-, rfl⟩ := apply_inv h
      simp
    | reopen opts coins => exact absurd rfl (hev opts coins)
    | _ =>
      rw [(hframe.writers rfl).2]
      exact hw.inflight

end DB.WellFormed

/-- Every step but `reopen` keeps the MANIFEST, if its reader takes the current version. -/
theorem ManifestOk.step {db db' : DB} (h : ManifestOk db.dir.manifest db.version)
    (hw : db.Stored) (hread : Manifest.ReaderOk db.version.toManifest) {ev : Event}
    (hev : ∀ opts coins, ev ≠ .reopen opts coins) (hfit : db.TablesFit ev)
    (hstep : db.step ev = some db') : ManifestOk db'.dir.manifest db'.version := by
  rcases DB.step_manifest hev hstep with ⟨hver, hman⟩ | ⟨hman, -⟩
  · rw [hver, hman]
    exact h
  · rw [hman]
    exact (h.read hread).append (hw.step hev hfit hstep).okFiles

theorem DB.wellFormed_create (opts : Options) : (DB.create opts).WellFormed where
  tables := by
    have hlevel : ∀ l, Version.empty.files l = [] := fun _ => rfl
    constructor <;> simp [hlevel, DB.create, Job.outputsOf, usedNumbers, Job.writerNumbers,
      Job.pieces, Job.inputsOf]
  log := by
    show LogOk (some []) Memtable.fresh.entries
    rw [Memtable.entries_fresh]
    exact LogOk.nil
  inflight := by simp [DB.create]

theorem manifestOk_create (opts : Options) :
    ManifestOk (DB.create opts).dir.manifest (DB.create opts).version :=
  ⟨[], [], rfl, List.Perm.refl _, rfl, by simp, by simp⟩

end Keystone
