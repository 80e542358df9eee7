/-
  What the tables are made of.

  Every table of a run is one that `SSTableWriter` made, of the memtable or of entries that a
  round read from such tables. `DB.TablesOf P Q` says that of the open tables and the pieces of a
  round with a property `P` of their entries, and of the files in the directory with `Q`, which
  may be weaker: a crash leaves files that the next instance does not open.

  It is kept by every step, whatever the lengths, the MANIFEST and the numbers of the files, if
  a merge keeps `P` (`MergeClosed`).
-/
import Keystone.Crash

namespace Keystone

variable {P Q : List Entry → Prop}

/-- The table is one the writer makes of entries with `P`. -/
def SSTable.Of (P : List Entry → Prop) (t : SSTable) : Prop :=
  ∃ es, t = tableOf es ∧ (tableFile es).length ≤ maxFileSize ∧ P es

/-- The file is one the writer makes of entries with `P`. -/
def FileOf (P : List Entry → Prop) (file : Bytes) : Prop :=
  ∃ es, file = tableFile es ∧ (tableFile es).length ≤ maxFileSize ∧ P es

theorem SSTable.Of.imp {t : SSTable} (h : t.Of P) (himp : ∀ es, P es → Q es) : t.Of Q := by
  obtain ⟨es, rfl, hmax, hes⟩ := h
  exact ⟨es, rfl, hmax, himp es hes⟩

theorem FileOf.imp {file : Bytes} (h : FileOf P file) (himp : ∀ es, P es → Q es) :
    FileOf Q file := by
  obtain ⟨es, rfl, hmax, hes⟩ := h
  exact ⟨es, rfl, hmax, himp es hes⟩

theorem FileOf.open {file : Bytes} {t : SSTable} (h : FileOf P file)
    (hopen : SSTable.open file = .ok t) : t.Of P := by
  obtain ⟨es, rfl, hmax, hes⟩ := h
  exact ⟨es, ((open_tableFile_iff hmax).1 hopen).2, hmax, hes⟩

theorem buildTable_of {number : Nat} {level : Level} {es : List Entry} {file : Bytes}
    {fm : FileMeta} (hes : P es) (h : DB.buildTable number level es = some (file, fm)) :
    FileOf P file ∧ fm.table.Of P := by
  obtain ⟨hmax, -, rfl, rfl⟩ := buildTable_iff.1 h
  exact ⟨⟨es, rfl, hmax, hes⟩, es, rfl, hmax, hes⟩

/-- What is read from such a table. -/
theorem SSTable.Of.entries {t : SSTable} (h : t.Of P) :
    ∃ es, P es ∧ t = tableOf es ∧ t.entries = .ok (contentsOf es) := by
  obtain ⟨es, rfl, hmax, hes⟩ := h
  exact ⟨es, hes, rfl, entries_readable hmax⟩

/-- What a round makes of tables with `P` has `P` again. -/
def MergeClosed (P : List Entry → Prop) : Prop :=
  ∀ (inputs : List FileMeta) (sources : List (List Entry)) (oldestSnap : UInt64)
    (isBottommost : Bool) (target : Nat) (pq : SourceQueue), (∀ fm ∈ inputs, fm.table.Of P) →
    DB.readInputs inputs = .ok sources →
    ∀ es ∈ mergeOutputs oldestSnap isBottommost target (mergeVersions pq sources), P es

/-- A property of each entry that a table does not change. -/
theorem mergeClosed_forall {R : Entry → Prop} (hR : ∀ e, R e → R e.stored) :
    MergeClosed fun es => ∀ e ∈ es, R e := by
  intro inputs sources oldestSnap isBottommost target pq hin hread es hes e he
  obtain ⟨fm, hfm, hentries, hmem⟩ := mem_mergeOutputs hread hes he
  obtain ⟨es', hes', -, hread'⟩ := (hin fm hfm).entries
  rw [Except.ok.inj (hentries.symm.trans hread')] at hmem
  obtain ⟨e', he', rfl⟩ := List.mem_map.1 ((contentsOf_isPrefix es').subset hmem)
  exact hR e' (hes' e' he')

/-- The tables the engine has: of its version, and the finished outputs of its round. -/
def DB.openTables (db : DB) : List FileMeta := db.version.allFiles ++ Job.outputsOf db.job

/-- The open tables and what can still go into one have `P`, the files have `Q`. -/
structure DB.TablesOf (P Q : List Entry → Prop) (db : DB) : Prop where
  tables : ∀ fm ∈ db.openTables, fm.table.Of P
  pieces : ∀ es ∈ Job.pieces db.job, P es
  disk : ∀ p ∈ db.dir.sst, FileOf Q p.2

/-- What holds of the tables there are and of those that are installed. -/
theorem execAll_disk {R : Bytes → Prop} {dir : Dir} {ops : List DiskOp}
    (hops : ∀ n file, .install n file ∈ ops → R file)
    (h : ∀ p ∈ dir.sst, R p.2) : ∀ p ∈ (dir.execAll ops).sst, R p.2 := by
  induction ops generalizing dir with
  | nil => exact h
  | cons op ops ih =>
    refine ih (fun n file hmem => hops n file (List.mem_cons_of_mem op hmem)) fun p hp => ?_
    cases op with
    | install n file =>
      rcases List.mem_cons.1 hp with rfl | hp
      · exact hops n file List.mem_cons_self
      · exact h p (List.mem_filter.1 hp).1
    | removeSst n => exact h p (List.mem_filter.1 hp).1
    | _ => exact h p hp

theorem mem_openVersion {files : List FileMeta} {fm : FileMeta}
    (h : fm ∈ (DB.openVersion files).allFiles) : fm ∈ files := by
  obtain ⟨l, hl⟩ := Version.mem_allFiles.1 h
  exact (List.mem_filter.1 ((files_openVersion_perm files l).mem_iff.1 hl)).1

namespace DB.TablesOf

variable {db db' : DB}

theorem create (opts : Options) : (DB.create opts).TablesOf P Q := by
  refine ⟨fun fm hfm => ?_, by simp [DB.create, Job.pieces], by simp [DB.create]⟩
  simp [DB.create, Version.empty, Version.allFiles, Job.outputsOf, DB.openTables] at hfm

theorem of_open {opts : Options} {coins : List (List Bool)} {dir : Dir}
    (h : ∀ p ∈ dir.sst, FileOf Q p.2) (hopen : DB.open opts coins dir = .ok db) :
    db.TablesOf Q Q := by
  obtain ⟨files, hfiles, rfl⟩ := DB.open_inv hopen
  refine ⟨fun fm hfm => ?_, by simp [Job.pieces],
    execAll_disk (fun _ _ hmem => absurd hmem openOps_not_install) h⟩
  simp only [DB.openTables, Job.outputsOf, Option.map_none, Option.getD_none,
    List.append_nil] at hfm
  obtain ⟨entry, -, file, hfind, ht⟩ := DB.mem_openFiles hfiles (mem_openVersion hfm)
  exact (h _ (List.mem_of_find?_eq_some hfind)).open ht

/-- A step that opens, begins and writes nothing new. -/
theorem moved (h : db.TablesOf P Q)
    (htab : ∀ fm ∈ db'.openTables, fm ∈ db.openTables ∨ fm.table.Of P)
    (hpie : ∀ es ∈ Job.pieces db'.job, es ∈ Job.pieces db.job ∨ P es)
    (hdisk : ∀ p ∈ db'.dir.sst, p ∈ db.dir.sst ∨ FileOf Q p.2) : db'.TablesOf P Q where
  tables fm hfm := (htab fm hfm).elim (h.tables fm) id
  pieces es hes := (hpie es hes).elim (h.pieces es) id
  disk p hp := (hdisk p hp).elim (h.disk p) id

theorem flush (h : db.TablesOf P Q) (hPQ : ∀ es, P es → Q es) (hmem : P db.memtable.entries)
    (hstep : db.flush = some db') : db'.TablesOf P Q := by
  rcases DB.flush_shape hstep with ⟨-, rfl⟩ | ⟨-, -, file, fm, hbuild, rfl⟩
  · exact h
  · obtain ⟨hfile, hfm⟩ := buildTable_of hmem hbuild
    refine h.moved (fun f hf => ?_) (fun _ => Or.inl) fun p hp => ?_
    · rw [DB.openTables, List.mem_append, (allFiles_pushL0 _ _).mem_iff] at hf
      rw [DB.openTables]
      simp only [List.mem_append, List.mem_singleton] at hf ⊢
      rcases hf with (hf | rfl) | hf
      · exact Or.inl (Or.inl hf)
      · exact Or.inr hfm
      · exact Or.inl (Or.inr hf)
    · rcases List.mem_cons.1 hp with rfl | hp
      · exact Or.inr (hfile.imp hPQ)
      · exact Or.inl (List.mem_filter.1 hp).1

theorem pick (h : db.TablesOf P Q) (hP : MergeClosed P) {pq : SourceQueue}
    (hstep : db.pick pq = some db') : db'.TablesOf P Q := by
  obtain ⟨-, hj, ⟨-, rfl⟩ | ⟨-, sources, hread, rfl⟩⟩ := DB.pick_shape hstep
  · exact h.moved (fun _ => Or.inl) (fun _ => Or.inl) fun _ => Or.inl
  · refine h.moved (fun fm hfm => ?_) (fun es hes => ?_) fun _ => Or.inl
    · exact Or.inl (by simpa [DB.openTables, Job.outputsOf, hj] using hfm)
    · refine Or.inr (hP _ _ _ _ _ pq (fun fm hfm => h.tables fm ?_) hread es
        (by simpa [Job.pieces] using hes))
      exact List.mem_append_left _ (pickCompaction_inputs _ _ _ fm hfm)

theorem finishWriter (h : db.TablesOf P Q) (hPQ : ∀ es, P es → Q es)
    (hstep : db.finishWriter = some db') : db'.TablesOf P Q := by
  obtain ⟨job, chunks, number, chunk, outputs, file, fm, hj, hbuild, rfl⟩ :=
    DB.finishWriter_shape hstep
  obtain ⟨hfile, hfm⟩ := buildTable_of (h.pieces chunk (by simp [Job.pieces, hj])) hbuild
  refine h.moved (fun f hf => ?_) (fun es hes => Or.inl ?_) fun p hp => ?_
  · simp only [DB.openTables, Job.outputsOf, Option.map_some, Option.getD_some, List.mem_append,
      List.mem_singleton, hj] at hf ⊢
    rcases hf with hf | hf | rfl
    · exact Or.inl (Or.inl hf)
    · exact Or.inl (Or.inr hf)
    · exact Or.inr hfm
  · simp only [Job.pieces, hj] at hes ⊢
    exact List.mem_append_right _ (by simpa using hes)
  · rcases List.mem_cons.1 hp with rfl | hp
    · exact Or.inr (hfile.imp hPQ)
    · exact Or.inl (List.mem_filter.1 hp).1

theorem commit (h : db.TablesOf P Q) (hstep : db.commit = some db') : db'.TablesOf P Q := by
  obtain ⟨job, outputs, hj, ⟨-, rfl⟩ | ⟨-, rfl⟩⟩ := DB.commit_inv hstep
  · refine h.moved (fun fm hfm => Or.inl ?_) (by simp [Job.pieces]) fun _ => Or.inl
    exact List.mem_append_left _ (by simpa [DB.openTables, Job.outputsOf] using hfm)
  · refine h.moved (fun fm hfm => Or.inl ?_) (by simp [Job.pieces]) fun _ => Or.inl
    simp only [DB.openTables, Job.outputsOf, Option.map_none, Option.getD_none, List.append_nil,
      hj, Option.map_some, Option.getD_some] at hfm ⊢
    exact ((remaining_sublist job _).append_right outputs).subset
      ((allFiles_commit _ job outputs).mem_iff.1 hfm)

/-- **One step of the engine**; a reopen is `of_open`. -/
theorem step (h : db.TablesOf P Q) (hP : MergeClosed P) (hPQ : ∀ es, P es → Q es)
    (hmem : P db.memtable.entries) {ev : Event} (hev : ∀ opts coins, ev ≠ .reopen opts coins)
    (hstep : db.step ev = some db') : db'.TablesOf P Q := by
  cases ev with
  | assign ops =>
    obtain ⟨-, -, rfl⟩ := DB.assign_inv hstep
    exact ⟨h.tables, h.pieces, h.disk⟩
  | apply coins =>
    obtain ⟨-, rfl⟩ := DB.apply_inv hstep
    exact ⟨h.tables, h.pieces, h.disk⟩
  | flush => exact h.flush hPQ hmem hstep
  | maybeFlush =>
    rcases DB.maybeFlush_inv hstep with ⟨-, hstep⟩ | ⟨-, rfl⟩
    · exact h.flush hPQ hmem hstep
    · exact h
  | getSnapshot | releaseSnapshot _ | compactCall | compactWake =>
    obtain ⟨_, _, _, _, rfl⟩ := DB.calls_shape rfl hstep
    exact ⟨h.tables, h.pieces, h.disk⟩
  | pick pq => exact h.pick hP hstep
  | startWriter =>
    obtain ⟨job, chunk, chunks, outputs, hj, -, rfl⟩ := DB.startWriter_inv hstep
    refine h.moved (fun fm hfm => Or.inl ?_) (fun es hes => Or.inl ?_) fun _ => Or.inl
    · simpa [DB.openTables, Job.outputsOf, hj] using hfm
    · simpa [Job.pieces, hj] using hes
  | finishWriter => exact h.finishWriter hPQ hstep
  | commit => exact h.commit hstep
  | unlink number =>
    obtain ⟨-, rfl⟩ := DB.unlink_inv hstep
    exact h.moved (fun _ => Or.inl) (fun _ => Or.inl) fun p hp => Or.inl (List.mem_filter.1 hp).1
  | reopen opts coins => exact absurd rfl (hev opts coins)

/-- The files a crash leaves. -/
theorem crashDir (h : db.TablesOf P Q) (hPQ : ∀ es, P es → Q es) (hmem : P db.memtable.entries)
    (c : CrashAt) : ∀ p ∈ (db.crashDir c).sst, FileOf Q p.2 := by
  have hopens : ∀ (opens : List Nat) (dir : Dir), (∀ p ∈ dir.sst, FileOf Q p.2) →
      ∀ p ∈ (opens.foldl Dir.crashOpen dir).sst, FileOf Q p.2 := by
    intro opens
    induction opens with
    | nil => exact fun _ hd => hd
    | cons n opens ih =>
      exact fun dir hd => ih _ (execAll_disk (fun _ _ hmem =>
        absurd (List.mem_of_mem_take hmem) openOps_not_install) hd)
  refine hopens c.opens _ ?_
  rw [crashIn_sst]
  refine execAll_disk (fun n file hins => ?_) h.disk
  obtain ⟨number, level, es, fm, hbuild, hes⟩ := diskOps_install (List.mem_of_mem_take hins)
  refine (buildTable_of ?_ hbuild).1.imp hPQ
  rcases hes with rfl | hes
  · exact hmem
  · exact h.pieces es hes

end DB.TablesOf

end Keystone
