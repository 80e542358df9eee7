/-
  Who holds a table, and when its file goes away.

  `Version` objects and tables are shared by `std::shared_ptr`. `current_version_`, `snap_ver` of
  the compaction thread and `ver` of every read refer to a `Version`; a `Version`, `job.inputs` and
  `outputs` refer to tables. A commit only marks its inputs (`doomed`): the file of a marked table
  is unlinked by `~SSTable`, when the last reference to the table goes away, in whichever thread
  that happens.

  `Refs` has the counters and moves them as the source does, and unlinks only where a counter says
  so. A table is known by its number: the files of a sound store have different numbers, and each
  is opened once. A destructor gives its tables up one at a time, and other threads may run in
  between; under `mu_` this allows more than the program does.

  * `Refs.Sound.step`: every step keeps the counters right, and the files of all tables in use.
  * `files_in_use`: no read loses a file of the version it took, and nothing but a pending read
    keeps the file of a merged table in the directory.
-/
import Keystone.Lib.RefCount
import Keystone.Readers
import Keystone.Tidy

namespace Keystone

open RefCount (Heap)

/-- The tables a `Version` refers to, by their numbers. -/
def Version.numbers (ver : Version) : List Nat := ver.allFiles.map FileMeta.number

/-- `job.inputs` and `outputs` of the round in progress, which refer to their tables. -/
def Job.copies (job : Option Job) : List FileMeta := Job.outputsOf job ++ Job.inputsOf job

/-- The version a read holds. -/
def Clients.holds (c : Clients) (id : Nat) : Option Version := (c.readers[id]?).bind Reader.version

theorem Clients.holds_set {c : Clients} {id : Nat} {r₀ : Reader} (hid : c.readers[id]? = some r₀)
    (r : Reader) (id' : Nat) : Clients.holds { c with readers := c.readers.set id r } id' =
      if id' = id then r.version else c.holds id' := by
  have hlt : id < c.readers.length := (List.getElem?_eq_some_iff.1 hid).1
  rcases eq_or_ne id' id with rfl | hne
  · rw [if_pos rfl, holds, List.getElem?_set_self hlt, Option.bind_some]
  · rw [if_neg hne, holds, List.getElem?_set_ne hne.symm, holds]

theorem Clients.holds_ask (c : Clients) (q : Query) (id : Nat) :
    (c.ask q).holds id = c.holds id := by
  rw [holds, holds, ask, List.getElem?_append]
  split
  · rfl
  · rename_i hge
    rw [List.getElem?_eq_none (not_lt.1 hge)]
    cases id - c.readers.length <;> rfl

/-- Writers leave versions and tables alone. -/
theorem Writers.store_of_step {w w' : Writers} {ev : WriteEvent} (hev : ∀ e, ev ≠ .engine e)
    (hstep : w.step ev = some w') : ∃ seq wal mem, w'.store = { w.store with
      nextSeq := seq
      dir := { w.store.dir with wal := wal }
      memtable := mem } := by
  cases ev with
  | call op =>
    obtain rfl : w.call op = w' := Option.some.inj hstep
    rcases w.call_cases op with he | hlead
    · rw [he]
      exact ⟨_, _, _, rfl⟩
    · obtain ⟨_, -, -, -, -, he⟩ := Writers.lead_inv hlead
      rw [he]
      exact ⟨_, _, _, rfl⟩
  | lead id =>
    obtain ⟨_, -, -, -, -, rfl⟩ := Writers.lead_inv hstep
    exact ⟨_, _, _, rfl⟩
  | apply id coins =>
    obtain ⟨_, _, -, -, rfl⟩ := Writers.apply_inv hstep
    exact ⟨_, _, _, rfl⟩
  | finish id =>
    obtain ⟨_, _, -, -, rfl⟩ := Writers.finish_inv hstep
    exact ⟨_, _, _, rfl⟩
  | wake id =>
    obtain ⟨_, -, -, -, rfl⟩ := Writers.wake_inv hstep
    exact ⟨_, _, _, rfl⟩
  | engine e => exact absurd rfl (hev e)

/-! ## Tables that something refers to -/

/-- The file is there, and the table is what `SSTable::open` makes of it. -/
def FileMeta.InDir (fm : FileMeta) (sst : List (Nat × Bytes)) : Prop :=
  ∃ file, (fm.number, file) ∈ sst ∧ SSTable.open file = .ok fm.table

theorem FileMeta.InDir.remove {sst : List (Nat × Bytes)} {fm : FileMeta} (h : fm.InDir sst)
    {n : Nat} (hne : fm.number ≠ n) : fm.InDir (sst.filter fun p => p.1 ≠ n) := by
  obtain ⟨file, hfile, hopen⟩ := h
  exact ⟨file, List.mem_filter.2 ⟨hfile, by simpa using hne⟩, hopen⟩

theorem FileMeta.InDir.install {sst : List (Nat × Bytes)} {fm : FileMeta} (h : fm.InDir sst)
    {n : Nat} (hne : fm.number ≠ n) (file : Bytes) :
    fm.InDir ((n, file) :: sst.filter fun p => p.1 ≠ n) := by
  obtain ⟨file', hfile, hopen⟩ := h.remove hne
  exact ⟨file', List.mem_cons_of_mem _ hfile, hopen⟩

theorem inDir_of_buildTable {number : Nat} {level : Level} {es : List Entry} {file : Bytes}
    {fm : FileMeta} (h : DB.buildTable number level es = some (file, fm)) (sst : List (Nat × Bytes)) :
    fm.InDir ((number, file) :: sst) := by
  obtain ⟨hmax, hopens, rfl, rfl⟩ := buildTable_iff.1 h
  exact ⟨tableFile es, List.mem_cons_self, open_tableFile hopens hmax⟩

/-- What is known of them; `objects` are the versions that live, `live` the numbers of the tables
    that do. -/
structure DB.TablesHeld (db : DB) (objects : List (Nat × Version)) (live : List Nat) : Prop where
  used : ∀ o ∈ objects, ∀ n ∈ o.2.numbers, n ∈ live
  copies : ∀ fm ∈ Job.copies db.job, fm.number ∈ live
  below : ∀ n ∈ live, n < db.nextSst
  inDir : ∀ o ∈ objects, ∀ fm ∈ o.2.allFiles, fm.InDir db.dir.sst
  outputs : ∀ fm ∈ Job.outputsOf db.job, fm.InDir db.dir.sst ∧ fm.number ∉ db.doomed ∧
    fm.number ∉ (Job.inputsOf db.job).map FileMeta.number ∧ ∀ o ∈ objects, fm.number ∉ o.2.numbers
  writer : ∀ n ∈ Job.writerNumbers db.job, n < db.nextSst ∧ n ∉ live
  doomed : ∀ n ∈ db.doomed, n ∈ live ∧ n ∉ db.version.numbers

namespace DB.TablesHeld

variable {db db' : DB} {objects objects' : List (Nat × Version)} {live live' : List Nat}

theorem congr (h : db.TablesHeld objects live) (hver : db'.version = db.version)
    (hjob : db'.job = db.job) (hdoomed : db'.doomed = db.doomed) (hsst : db'.dir.sst = db.dir.sst)
    (hnext : db'.nextSst = db.nextSst) : db'.TablesHeld objects live := by
  refine ⟨h.used, ?_, ?_, ?_, ?_, ?_, ?_⟩ <;> simp only [hver, hjob, hdoomed, hsst, hnext]
  exacts [h.copies, h.below, h.inDir, h.outputs, h.writer, h.doomed]

/-- Versions go away; their tables are still referred to. -/
theorem mono (h : db.TablesHeld objects live) (hobj : ∀ o ∈ objects', o ∈ objects)
    (hlive : ∀ n, n ∈ live' ↔ n ∈ live) : db.TablesHeld objects' live' where
  used o ho n hn := (hlive n).2 (h.used o (hobj o ho) n hn)
  copies fm hfm := (hlive _).2 (h.copies fm hfm)
  below n hn := h.below n ((hlive n).1 hn)
  inDir o ho := h.inDir o (hobj o ho)
  outputs fm hfm := by
    obtain ⟨hdisk, hdoomed, hin, hno⟩ := h.outputs fm hfm
    exact ⟨hdisk, hdoomed, hin, fun o ho => hno o (hobj o ho)⟩
  writer n hn := ⟨(h.writer n hn).1, fun hmem => (h.writer n hn).2 ((hlive n).1 hmem)⟩
  doomed n hn := ⟨(hlive n).2 (h.doomed n hn).1, (h.doomed n hn).2⟩

/-- A flush adds a table with a new number to the version. -/
theorem flush (h : db.TablesHeld objects live) {v : Nat} (hcur : (v, db.version) ∈ objects)
    {file : Bytes} {fm : FileMeta}
    (hbuild : DB.buildTable db.nextSst 0 db.memtable.entries = some (file, fm))
    (hver : db'.version = db.version.pushL0 fm) (hjob : db'.job = db.job)
    (hdoomed : db'.doomed = db.doomed)
    (hsst : db'.dir.sst = (db.nextSst, file) :: db.dir.sst.filter fun p => p.1 ≠ db.nextSst)
    (hnext : db'.nextSst = db.nextSst + 1)
    (hobj : ∀ o ∈ objects', o ∈ objects ∨ o.2 = db'.version)
    (hlive : ∀ n, n ∈ live' ↔ n ∈ db'.version.numbers ∨ n ∈ live) :
    db'.TablesHeld objects' live' := by
  have hnum : fm.number = db.nextSst := congrArg FileMeta.number (buildTable_iff.1 hbuild).2.2.2
  have hfiles : ∀ f, f ∈ db'.version.allFiles ↔ f ∈ db.version.allFiles ∨ f = fm := fun f => by
    rw [hver, (allFiles_pushL0 _ _).mem_iff, List.mem_append, List.mem_singleton]
  have hnums : ∀ n, n ∈ db'.version.numbers ↔ n ∈ db.version.numbers ∨ n = db.nextSst := fun n => by
    rw [hver, Version.numbers, ((allFiles_pushL0 _ _).map _).mem_iff, List.map_append,
      List.mem_append, List.map_singleton, List.mem_singleton, hnum, Version.numbers]
  have hlive' : ∀ n, n ∈ live' ↔ n ∈ live ∨ n = db.nextSst := fun n => by
    rw [hlive, hnums]
    have := h.used _ hcur n
    tauto
  have hold : ∀ f : FileMeta, f.number ∈ live → f.InDir db.dir.sst → f.InDir db'.dir.sst :=
    fun f hf hdir => hsst ▸ hdir.install (h.below _ hf).ne file
  refine ⟨fun o ho n hn => ?_, fun f hf => ?_, fun n hn => ?_, fun o ho f hf => ?_, fun f hf => ?_,
    fun n hn => ?_, fun n hn => ?_⟩
  · rcases hobj o ho with ho | he
    · exact (hlive' n).2 (Or.inl (h.used o ho n hn))
    · exact (hlive n).2 (Or.inl (he ▸ hn))
  · exact (hlive' _).2 (Or.inl (h.copies f (hjob ▸ hf)))
  · rw [hnext]
    rcases (hlive' n).1 hn with hn | rfl
    · exact Nat.lt_succ_of_lt (h.below n hn)
    · exact Nat.lt_succ_self _
  · have holder : ∀ o ∈ objects, f ∈ o.2.allFiles → f.InDir db'.dir.sst := fun o ho hf =>
      hold f (h.used o ho _ (List.mem_map_of_mem hf)) (h.inDir o ho f hf)
    rcases hobj o ho with ho | he
    · exact holder o ho hf
    · rcases (hfiles f).1 (he ▸ hf) with hf | rfl
      · exact holder _ hcur hf
      · exact hsst ▸ inDir_of_buildTable hbuild _
  · rw [hjob] at hf ⊢
    rw [hdoomed]
    obtain ⟨hdir, hkept, hin, hno⟩ := h.outputs f hf
    have hmem : f.number ∈ live := h.copies f (List.mem_append_left _ hf)
    refine ⟨hold f hmem hdir, hkept, hin, fun o ho => ?_⟩
    rcases hobj o ho with ho | he
    · exact hno o ho
    · rw [he, hnums]
      exact not_or.2 ⟨hno _ hcur, (h.below _ hmem).ne⟩
  · obtain ⟨hlt, hno⟩ := h.writer n (hjob ▸ hn)
    rw [hnext, hlive']
    exact ⟨Nat.lt_succ_of_lt hlt, not_or.2 ⟨hno, hlt.ne⟩⟩
  · obtain ⟨hmem, hno⟩ := h.doomed n (hdoomed ▸ hn)
    rw [hlive', hnums]
    exact ⟨Or.inl hmem, not_or.2 ⟨hno, (h.below n hmem).ne⟩⟩

/-- A new output is begun. -/
theorem startWriter (h : db.TablesHeld objects live) (hstep : db.startWriter = some db') :
    db'.TablesHeld objects live := by
  obtain ⟨job, chunk, chunks, outputs, hj, -, rfl⟩ := DB.startWriter_inv hstep
  have hcopies := h.copies
  have houtputs := h.outputs
  rw [hj] at hcopies houtputs
  refine ⟨h.used, hcopies, fun n hn => Nat.lt_succ_of_lt (h.below n hn), h.inDir, houtputs,
    fun n hn => ?_, h.doomed⟩
  obtain rfl : n = db.nextSst := by simpa [Job.writerNumbers] using hn
  exact ⟨Nat.lt_succ_self _, fun hmem => (h.below _ hmem).false⟩

/-- An output is finished, and `outputs` refers to it. -/
theorem finishWriter (h : db.TablesHeld objects live) (hstep : db.finishWriter = some db')
    (hlive : ∀ n, n ∈ live' ↔ n ∈ Job.writerNumbers db.job ∨ n ∈ live) :
    db'.TablesHeld objects live' := by
  obtain ⟨job, chunks, number, chunk, outputs, file, fm, hj, hbuild, rfl⟩ :=
    DB.finishWriter_shape hstep
  have hnum : fm.number = number := congrArg FileMeta.number (buildTable_iff.1 hbuild).2.2.2
  have hw : ∀ n, n ∈ Job.writerNumbers db.job ↔ n = number := fun n => by
    rw [hj]
    simp [Job.writerNumbers]
  obtain ⟨hlt, hnew⟩ := h.writer number ((hw number).2 rfl)
  have hold : ∀ f : FileMeta, f.number ∈ live → f.InDir db.dir.sst →
      f.InDir (db.dir.execAll [.install number file]).sst :=
    fun f hf hdir => by
      have hne : f.number ≠ number := fun he => hnew (he ▸ hf)
      exact hdir.install hne file
  have hcopies := h.copies
  have houtputs := h.outputs
  rw [hj] at hcopies houtputs
  simp only [hw] at hlive
  refine ⟨fun o ho n hn => (hlive n).2 (Or.inr (h.used o ho n hn)), fun f hf => ?_, fun n hn => ?_,
    fun o ho f hf => ?_, fun f hf => ?_, fun n hn => ?_, fun n hn => ?_⟩
  · rcases List.mem_append.1 hf with hf | hf
    · rcases List.mem_append.1 hf with hf | hf
      · exact (hlive _).2 (Or.inr (hcopies f (List.mem_append_left _ hf)))
      · exact (hlive _).2 (Or.inl ((congrArg FileMeta.number (List.mem_singleton.1 hf)).trans hnum))
    · exact (hlive _).2 (Or.inr (hcopies f (List.mem_append_right _ hf)))
  · rcases (hlive n).1 hn with rfl | hn
    · exact hlt
    · exact h.below n hn
  · exact hold f (h.used o ho _ (List.mem_map_of_mem hf)) (h.inDir o ho f hf)
  · rcases List.mem_append.1 hf with hf | hf
    · obtain ⟨hdir, hkept, hin, hno⟩ := houtputs f hf
      exact ⟨hold f (hcopies f (List.mem_append_left _ hf)) hdir, hkept, hin, hno⟩
    · obtain rfl := List.mem_singleton.1 hf
      refine ⟨inDir_of_buildTable hbuild _, fun hmem => ?_, fun hmem => ?_, fun o ho hmem => ?_⟩
      · exact hnew (hnum ▸ (h.doomed _ hmem).1)
      · obtain ⟨g, hg, he⟩ := List.mem_map.1 hmem
        exact hnew (hnum ▸ he ▸ hcopies g (List.mem_append_right _ hg))
      · exact hnew (hnum ▸ h.used o ho _ hmem)
  · simp [Job.writerNumbers] at hn
  · exact ⟨(hlive n).2 (Or.inr (h.doomed n hn).1), (h.doomed n hn).2⟩

/-- A round begins with tables that live already, or ends. -/
theorem newJob (h : db.TablesHeld objects live) (job : Option Job) (hout : Job.outputsOf job = [])
    (hwriter : Job.writerNumbers job = []) (hin : ∀ fm ∈ Job.inputsOf job, fm.number ∈ live)
    (pending : Bool) :
    DB.TablesHeld { db with compactionPending := pending, job := job } objects live where
  used := h.used
  copies fm hfm := by
    rw [Job.copies, hout, List.nil_append] at hfm
    exact hin fm hfm
  below := h.below
  inDir := h.inDir
  outputs fm hfm := absurd (hout ▸ hfm) List.not_mem_nil
  writer n hn := absurd (hwriter ▸ hn) List.not_mem_nil
  doomed := h.doomed

/-- A round that has written something replaces its inputs and marks them. -/
theorem commit (h : db.TablesHeld objects live) {v : Nat} (hcur : (v, db.version) ∈ objects)
    {job : CompactionJob} {outputs : List FileMeta} (hj : db.job = some ⟨job, [], none, outputs⟩)
    (hver : db'.version = commitVersion db.version job outputs) (hjob : db'.job = none)
    (hdoomed : db'.doomed = db.doomed ++ job.inputs.map FileMeta.number)
    (hsst : db'.dir.sst = db.dir.sst) (hnext : db'.nextSst = db.nextSst)
    (hobj : ∀ o ∈ objects', o ∈ objects ∨ o.2 = db'.version)
    (hlive : ∀ n, n ∈ live' ↔ n ∈ db'.version.numbers ∨ n ∈ live) :
    db'.TablesHeld objects' live' := by
  have hcopies := h.copies
  have houtputs := h.outputs
  rw [hj] at hcopies houtputs
  have hfiles : ∀ f, f ∈ db'.version.allFiles ↔
      (f ∈ db.version.allFiles ∧ f.number ∉ job.inputs.map FileMeta.number) ∨ f ∈ outputs := fun f => by
    rw [hver, (allFiles_commit _ _ _).mem_iff, List.mem_append, mem_remaining]
  have hsame : ∀ n, n ∈ live' ↔ n ∈ live := fun n => by
    rw [hlive, or_iff_right_of_imp]
    intro hn
    obtain ⟨f, hf, rfl⟩ := List.mem_map.1 hn
    rcases (hfiles f).1 hf with hf | hf
    · exact h.used _ hcur _ (List.mem_map_of_mem hf.1)
    · exact hcopies f (List.mem_append_left _ hf)
  refine ⟨fun o ho n hn => ?_, fun f hf => ?_, fun n hn => ?_, fun o ho f hf => ?_, fun f hf => ?_,
    fun n hn => ?_, fun n hn => ?_⟩
  · rcases hobj o ho with ho | he
    · exact (hsame n).2 (h.used o ho n hn)
    · exact (hlive n).2 (Or.inl (he ▸ hn))
  · rw [hjob] at hf
    exact absurd hf List.not_mem_nil
  · exact hnext ▸ h.below n ((hsame n).1 hn)
  · rw [hsst]
    rcases hobj o ho with ho | he
    · exact h.inDir o ho f hf
    · rcases (hfiles f).1 (he ▸ hf) with hf | hf
      · exact h.inDir _ hcur f hf.1
      · exact (houtputs f hf).1
  · rw [hjob] at hf
    exact absurd hf List.not_mem_nil
  · rw [hjob] at hn
    exact absurd hn List.not_mem_nil
  · -- marked before or now, in both cases it is no file of the new version
    rw [hdoomed] at hn
    rcases List.mem_append.1 hn with hn | hn
    · refine ⟨(hsame n).2 (h.doomed n hn).1, fun hmem => ?_⟩
      obtain ⟨f, hf, rfl⟩ := List.mem_map.1 hmem
      rcases (hfiles f).1 hf with hf | hf
      · exact (h.doomed _ hn).2 (List.mem_map_of_mem hf.1)
      · exact (houtputs f hf).2.1 hn
    · obtain ⟨g, hg, rfl⟩ := List.mem_map.1 hn
      refine ⟨(hsame _).2 (hcopies g (List.mem_append_right _ hg)), fun hmem => ?_⟩
      obtain ⟨f, hf, he⟩ := List.mem_map.1 hmem
      rcases (hfiles f).1 hf with hf | hf
      · exact hf.2 (he ▸ hn)
      · exact (houtputs f hf).2.2.1 (he ▸ hn)

/-- A table loses a reference, but no marked one its last. -/
theorem lose (h : db.TablesHeld objects live) (hlive : ∀ n ∈ live', n ∈ live)
    (hused : ∀ o ∈ objects, ∀ n ∈ o.2.numbers, n ∈ live')
    (hcopies : ∀ fm ∈ Job.copies db.job, fm.number ∈ live') (hdoomed : ∀ n ∈ db.doomed, n ∈ live') :
    db.TablesHeld objects live' where
  used := hused
  copies := hcopies
  below n hn := h.below n (hlive n hn)
  inDir := h.inDir
  outputs := h.outputs
  writer n hn := ⟨(h.writer n hn).1, fun hmem => (h.writer n hn).2 (hlive n hmem)⟩
  doomed n hn := ⟨hdoomed n hn, (h.doomed n hn).2⟩

/-- A marked table loses its last reference. -/
theorem unlink (h : db.TablesHeld objects live) {number : Nat} (hstep : db.unlink number = some db')
    (hlive : ∀ n, n ∈ live ↔ n = number ∨ n ∈ live') (hdead : number ∉ live')
    (hused : ∀ o ∈ objects, ∀ n ∈ o.2.numbers, n ∈ live')
    (hcopies : ∀ fm ∈ Job.copies db.job, fm.number ∈ live') : db'.TablesHeld objects live' := by
  obtain ⟨-, rfl⟩ := DB.unlink_inv hstep
  have hkeep : ∀ f : FileMeta, f.number ∈ live' → f.InDir db.dir.sst →
      f.InDir (db.dir.sst.filter fun p => p.1 ≠ number) := fun f hf hdir => by
    have hne : f.number ≠ number := fun he => hdead (he ▸ hf)
    exact hdir.remove hne
  refine ⟨hused, hcopies, fun n hn => h.below n ((hlive n).2 (Or.inr hn)), fun o ho f hf => ?_,
    fun f hf => ?_, fun n hn => ?_, fun n hn => ?_⟩
  · exact hkeep f (hused o ho _ (List.mem_map_of_mem hf)) (h.inDir o ho f hf)
  · obtain ⟨hdir, hkept, hrest⟩ := h.outputs f hf
    exact ⟨hkeep f (hcopies f (List.mem_append_left _ hf)) hdir,
      fun hmem => hkept (List.mem_filter.1 hmem).1, hrest⟩
  · exact ⟨(h.writer n hn).1, fun hmem => (h.writer n hn).2 ((hlive n).2 (Or.inr hmem))⟩
  · obtain ⟨hn, hne⟩ := List.mem_filter.1 hn
    exact ⟨((hlive n).1 (h.doomed n hn).1).resolve_left (by simpa using hne), (h.doomed n hn).2⟩

end DB.TablesHeld

/-! ## The references -/

/-- The clients and the references: `current_version_`, `snap_ver`, and `ver` of each read that is
    between its two parts. A reference that ends in the section it begins in is left out. -/
structure Refs where
  clients : Clients
  heap : Heap Nat Version
  current : Nat
  snapVer : Option Nat := none
  held : List (Nat × Nat) := []

/-- A step of a client, or of a destructor that has a table to give up. -/
inductive RefEvent where
  | client (ev : ClientEvent)
  | drop (number : Nat)

/-- The deletion of a file, which is no step of its own here. -/
def ClientEvent.unlinks : ClientEvent → Bool
  | .write (.engine (.unlink _)) => true
  | _ => false

namespace Refs

abbrev store (s : Refs) : DB := s.clients.writers.store

/-- The references of a store that was just opened. -/
def start (db : DB) : Refs where
  clients := .start db
  heap := ({} : Heap Nat Version).make Version.numbers db.version
  current := 0

/-- `current_version_ = new_ver`. -/
def install (s : Refs) : Refs :=
  { s with
    heap := s.heap.replace Version.numbers s.current s.store.version
    current := s.heap.fresh }

/-- `snap_ver`, `outputs` and `job` go out of scope. -/
def endRound (s : Refs) (j : Job) : Refs :=
  { s with
    heap := (s.snapVer.elim s.heap (s.heap.release Version.numbers)).discard
      ((Job.copies (some j)).map FileMeta.number)
    snapVer := none }

/-- What a step of the engine that leads to `c` does with the references. -/
def engine (s : Refs) (c : Clients) (ev : Event) : Refs :=
  let s' := { s with clients := c }
  match ev with
  | .flush => if s.store.flushes .flush then s'.install else s'
  | .maybeFlush => if s.store.flushes .maybeFlush then s'.install else s'
  | .pick _ =>
    match c.writers.store.job with
    | some j =>
      { s' with
        heap := (s.heap.share s.current).copy (j.job.inputs.map FileMeta.number)
        snapVer := some s.current }
    | none => s'
  | .finishWriter => { s' with heap := s.heap.copy (Job.writerNumbers s.store.job) }
  | .commit =>
    match s.store.job with
    | some j => (if j.outputs.isEmpty then s' else s'.install).endRound j
    | none => s'
  | _ => s'

/-- The same for a step of any client. -/
def track (s : Refs) (c : Clients) : ClientEvent → Refs
  | .take id =>
    { s with clients := c, heap := s.heap.share s.current, held := (id, s.current) :: s.held }
  | .answer id _ =>
    match s.held.find? fun p => p.1 = id with
    | some p =>
      { s with
        clients := c
        heap := s.heap.release Version.numbers p.2
        held := s.held.erase p }
    | none => { s with clients := c }
  | .write (.engine ev) => s.engine c ev
  | _ => { s with clients := c }

/-- A table loses a reference. With the last one `~SSTable` runs, which unlinks the file if the
    table is marked. -/
def drop (s : Refs) (number : Nat) : Option Refs :=
  (s.heap.drop number).bind fun (heap, dead) =>
    if dead && s.store.doomed.contains number then
      (s.clients.write (.engine (.unlink number))).map fun c => { s with clients := c, heap := heap }
    else some { s with heap := heap }

def step (s : Refs) : RefEvent → Option Refs
  | .client ev => if ev.unlinks then none else (s.clients.step ev).map fun c => s.track c ev
  | .drop number => s.drop number

def run (s : Refs) (evs : List RefEvent) : Option Refs := Steps.run Refs.step s evs

theorem clients_engine (s : Refs) (c : Clients) (ev : Event) : (s.engine c ev).clients = c := by
  cases ev with
  | flush | maybeFlush | pick =>
    simp only [engine]
    split <;> rfl
  | commit =>
    simp only [engine]
    split
    · split <;> rfl
    · rfl
  | _ => rfl

theorem clients_track (s : Refs) (c : Clients) (ev : ClientEvent) : (s.track c ev).clients = c := by
  cases ev with
  | write ev =>
    cases ev with
    | engine ev => exact clients_engine s c ev
    | call | lead | apply | finish | wake => rfl
  | ask q => rfl
  | take id => rfl
  | answer id pq =>
    rw [track]
    split <;> rfl

/-! ## The invariant -/

/-- The references to `Version` objects apart from `current_version_`. -/
def others (s : Refs) : List Nat := s.snapVer.toList ++ s.held.map Prod.snd

def copies (s : Refs) : List Nat := (Job.copies s.store.job).map FileMeta.number

/-- All references to tables. -/
def live (s : Refs) : List Nat := s.heap.live Version.numbers s.copies

structure Sound (s : Refs) : Prop where
  heap : s.heap.Sound Version.numbers (s.current :: s.others) s.copies
  current : (s.current, s.store.version) ∈ s.heap.objects
  idle : s.store.job = none → s.snapVer = none
  round : ∀ j, s.store.job = some j → ∃ v ver, s.snapVer = some v ∧ (v, ver) ∈ s.heap.objects ∧
    (∀ fm ∈ j.job.inputs, fm ∈ ver.allFiles) ∧ ∀ n ∈ s.store.doomed, n ∉ ver.numbers
  readers : ∀ id ver, s.clients.holds id = some ver ↔
    ∃ v, (id, v) ∈ s.held ∧ (v, ver) ∈ s.heap.objects
  once : (s.held.map Prod.fst).Nodup
  tables : s.store.TablesHeld s.heap.objects s.live

variable {s s' : Refs}

theorem mem_live {n : Nat} : n ∈ s.live ↔
    (∃ o ∈ s.heap.objects, n ∈ o.2.numbers) ∨ n ∈ s.copies ∨ n ∈ s.heap.dying := by
  simp only [live, Heap.live, List.mem_append, List.mem_flatMap, or_assoc]

namespace Sound

/-- A reference of a read is to the version it took. -/
theorem held_mem (h : s.Sound) {id v : Nat} (hv : (id, v) ∈ s.held) :
    ∃ ver, s.clients.holds id = some ver ∧ (v, ver) ∈ s.heap.objects := by
  have href : v ∈ s.current :: s.others :=
    List.mem_cons_of_mem _ (List.mem_append_right _ (List.mem_map_of_mem hv))
  obtain ⟨⟨_, ver⟩, hobj, rfl⟩ := List.mem_map.1 ((h.heap.alive v).1 href)
  exact ⟨ver, (h.readers id ver).2 ⟨_, hv, hobj⟩, hobj⟩

/-- Steps that have nothing to do with versions, tables and their files. -/
theorem frame (h : s.Sound) {c : Clients} (hr : ∀ id, c.holds id = s.clients.holds id)
    (hver : c.writers.store.version = s.store.version) (hjob : c.writers.store.job = s.store.job)
    (hdoomed : c.writers.store.doomed = s.store.doomed)
    (hsst : c.writers.store.dir.sst = s.store.dir.sst)
    (hnext : c.writers.store.nextSst = s.store.nextSst) : Sound { s with clients := c } := by
  have hcopies : copies { s with clients := c } = s.copies := by simp only [copies, store, hjob]
  have hlive : live { s with clients := c } = s.live := by simp only [live, hcopies]
  constructor <;> simp only [store, hcopies, hlive, hr, hver, hjob, hdoomed]
  exacts [h.heap, h.current, h.idle, h.round, h.readers, h.once,
    h.tables.congr hver hjob hdoomed hsst hnext]

/-- A read takes the current version. -/
theorem take (h : s.Sound) {c : Clients} {id : Nat} (ht : s.clients.take id = some c) :
    (s.track c (.take id)).Sound := by
  obtain ⟨q, hq, rfl⟩ := Clients.take_inv ht
  have htook : (q.take s.store).version = some s.store.version := by cases q <;> rfl
  have hnone : s.clients.holds id = none := by
    rw [Clients.holds, hq]
    rfl
  have hnew : ∀ v, (id, v) ∉ s.held := fun v hv => by
    obtain ⟨ver, hver, -⟩ := h.held_mem hv
    exact Option.some_ne_none ver (hver.symm.trans hnone)
  refine ⟨?_, h.current, h.idle, h.round, fun id' ver => ?_, ?_, h.tables⟩
  · exact (h.heap.share List.mem_cons_self).perm (List.perm_middle.symm.cons _) (List.Perm.refl _)
  · show Clients.holds { s.clients with readers := _ } id' = some ver ↔
      ∃ v, (id', v) ∈ (id, s.current) :: s.held ∧ (v, ver) ∈ s.heap.objects
    rw [Clients.holds_set hq]
    split
    · rename_i he
      subst he
      rw [htook, Option.some.injEq]
      constructor
      · rintro rfl
        exact ⟨s.current, List.mem_cons_self, h.current⟩
      · rintro ⟨v, hv, hobj⟩
        rcases List.mem_cons.1 hv with hv | hv
        · obtain rfl := (Prod.mk.inj hv).2
          exact h.heap.unique h.current hobj
        · exact absurd hv (hnew v)
    · rename_i hne
      rw [h.readers id' ver]
      have hcons : ∀ v, (id', v) ∈ (id, s.current) :: s.held ↔ (id', v) ∈ s.held := fun v =>
        List.mem_cons.trans (or_iff_right fun he => hne (Prod.mk.inj he).1)
      simp only [hcons]
  · refine List.nodup_cons.2 ⟨fun hmem => ?_, h.once⟩
    obtain ⟨⟨_, v⟩, hv, rfl⟩ := List.mem_map.1 hmem
    exact hnew v hv

/-- A read that returns gives its version up. -/
theorem answer (h : s.Sound) {c : Clients} {id : Nat} {pq : SourceQueue}
    (ha : s.clients.answer id pq = some c) : (s.track c (.answer id pq)).Sound := by
  obtain ⟨r, res, hr, hres, rfl⟩ := Clients.answer_inv ha
  obtain ⟨ver₀, hver₀⟩ : ∃ ver, s.clients.holds id = some ver := by
    rw [Clients.holds, hr]
    cases r with
    | asked q => simp [Reader.answer] at hres
    | getting key status ver => exact ⟨ver, rfl⟩
    | scanning first last mt ver => exact ⟨ver, rfl⟩
    | returned => simp [Reader.answer] at hres
  obtain ⟨v, hv, -⟩ := (h.readers id ver₀).1 hver₀
  obtain ⟨p, hfind⟩ : ∃ p, s.held.find? (fun p => p.1 = id) = some p :=
    Option.isSome_iff_exists.1 (List.find?_isSome.2 ⟨(id, v), hv, decide_eq_true rfl⟩)
  have hp : p ∈ s.held := List.mem_of_find?_eq_some hfind
  have hid : p.1 = id := by simpa using List.find?_some hfind
  have htrack : s.track { s.clients with readers := s.clients.readers.set id .returned }
      (.answer id pq) = { s with
        clients := { s.clients with readers := s.clients.readers.set id .returned }
        heap := s.heap.release Version.numbers p.2
        held := s.held.erase p } := by
    simp only [track, hfind]
  rw [htrack]
  -- the reference of the read comes to the front of the list
  have hperm : s.held.Perm (p :: s.held.erase p) := List.perm_cons_erase hp
  have hothers : (s.current :: s.others).Perm
      (p.2 :: s.current :: (s.snapVer.toList ++ (s.held.erase p).map Prod.snd)) := by
    refine List.Perm.trans (.cons _ ?_) (.swap _ _ _)
    exact ((hperm.map Prod.snd).append_left _).trans List.perm_middle
  have hheap := h.heap.perm hothers (List.Perm.refl _)
  have honce : id ∉ (s.held.erase p).map Prod.fst ∧ ((s.held.erase p).map Prod.fst).Nodup :=
    hid ▸ List.nodup_cons.1 ((hperm.map Prod.fst).nodup_iff.1 h.once)
  have hmem : ∀ {v : Nat} {ver : Version},
      v ∈ s.current :: (s.snapVer.toList ++ (s.held.erase p).map Prod.snd) →
      ((v, ver) ∈ (s.heap.release Version.numbers p.2).objects ↔ (v, ver) ∈ s.heap.objects) :=
    fun hv => hheap.mem_release hv
  refine ⟨hheap.release, (hmem List.mem_cons_self).2 h.current, h.idle, fun j hj => ?_,
    fun id' ver => ?_, honce.2, h.tables.mono (Heap.release_objects p.2) fun n =>
      (s.heap.live_release Version.numbers s.copies p.2).mem_iff⟩
  · obtain ⟨v, ver, hsnap, hobj, hround⟩ := h.round j hj
    refine ⟨v, ver, hsnap, (hmem ?_).2 hobj, hround⟩
    exact List.mem_cons_of_mem _ (List.mem_append_left _ (Option.mem_toList.2 hsnap))
  · show Clients.holds { s.clients with readers := _ } id' = some ver ↔
      ∃ v, (id', v) ∈ s.held.erase p ∧ (v, ver) ∈ (s.heap.release Version.numbers p.2).objects
    rw [Clients.holds_set hr]
    split
    · rename_i he
      refine iff_of_false (fun hnone => Option.some_ne_none ver hnone.symm) fun hheld => ?_
      obtain ⟨v, hv, -⟩ := hheld
      exact honce.1 (List.mem_map.2 ⟨_, hv, he⟩)
    · rename_i hne
      rw [h.readers id' ver]
      refine exists_congr fun v => ?_
      rw [List.mem_erase_of_ne fun he => hne ((congrArg Prod.fst he).trans hid)]
      refine and_congr_right fun hv => (hmem ?_).symm
      refine List.mem_cons_of_mem _ (List.mem_append_right _ (List.mem_map.2 ⟨(id', v), ?_, rfl⟩))
      exact (List.mem_erase_of_ne fun he => hne ((congrArg Prod.fst he).trans hid)).2 hv
section Engine

variable {c : Clients}

/-- Reads keep what they hold while other versions come and go. -/
theorem readers_congr (h : s.Sound) (hr : c.readers = s.clients.readers)
    {objects : List (Nat × Version)} (hobj : ∀ v ∈ s.held.map Prod.snd, ∀ ver,
      (v, ver) ∈ objects ↔ (v, ver) ∈ s.heap.objects) (id : Nat) (ver : Version) :
    c.holds id = some ver ↔ ∃ v, (id, v) ∈ s.held ∧ (v, ver) ∈ objects := by
  rw [Clients.holds, hr]
  refine (h.readers id ver).trans (exists_congr fun v => and_congr_right fun hv => ?_)
  exact (hobj v (List.mem_map_of_mem hv) ver).symm

theorem unchanged (h : s.Sound) (hr : c.readers = s.clients.readers)
    (hc : c.writers.store = s.store) : Sound { s with clients := c } :=
  h.frame (fun id => by rw [Clients.holds, hr, Clients.holds]) (congrArg DB.version hc)
    (congrArg DB.job hc) (congrArg DB.doomed hc) (congrArg (fun db : DB => db.dir.sst) hc)
    (congrArg DB.nextSst hc)

/-- A flush that makes a table installs a version. -/
theorem flush (h : s.Sound) (hr : c.readers = s.clients.readers)
    (hstep : s.store.flush = some c.writers.store) (hne : s.store.memtable.approxBytes ≠ 0) :
    (install { s with clients := c }).Sound := by
  obtain ⟨hz, -⟩ | ⟨-, -, file, fm, hbuild, hc⟩ := DB.flush_shape hstep
  · exact absurd hz hne
  have hjob : c.writers.store.job = s.store.job := by rw [hc]
  have hdoomed : c.writers.store.doomed = s.store.doomed := by rw [hc]
  have hcopies : copies (install { s with clients := c }) = s.copies := by
    simp only [copies, install, store, hjob]
  have hobj : ∀ v ∈ s.others, ∀ ver,
      (v, ver) ∈ (s.heap.replace Version.numbers s.current c.writers.store.version).objects ↔
        (v, ver) ∈ s.heap.objects := fun v hv ver => h.heap.mem_replace _ hv
  refine ⟨?_, h.heap.new_mem_replace _, fun hj => h.idle (hjob ▸ hj), fun j hj => ?_,
    h.readers_congr hr fun v hv => hobj v (List.mem_append_right _ hv), h.once, ?_⟩
  · rw [hcopies]
    exact h.heap.replace _
  · obtain ⟨v, ver, hsnap, hmem, hin, hkept⟩ := h.round j (hjob.symm.trans hj)
    refine ⟨v, ver, hsnap, (hobj v ?_ ver).2 hmem, hin, fun n hn => hkept n (hdoomed ▸ hn)⟩
    exact List.mem_append_left _ (Option.mem_toList.2 hsnap)
  · refine h.tables.flush h.current hbuild (congrArg DB.version hc) hjob hdoomed
      (congrArg (fun db : DB => db.dir.sst) hc) (congrArg DB.nextSst hc)
      (Heap.replace_objects _ _) fun n => ?_
    rw [live, hcopies]
    exact (s.heap.live_replace Version.numbers s.copies s.current _).mem_iff.trans List.mem_append

/-- A round takes the current version and copies its inputs. -/
theorem beginRound (h : s.Sound) (hr : c.readers = s.clients.readers) (hidle : s.store.job = none)
    {j : Job} {pending : Bool}
    (hc : c.writers.store = { s.store with compactionPending := pending, job := some j })
    (hin : ∀ fm ∈ j.job.inputs, fm ∈ s.store.version.allFiles) (hout : j.outputs = [])
    (hwriter : j.writer = none) :
    Sound { s with
      clients := c
      heap := (s.heap.share s.current).copy (j.job.inputs.map FileMeta.number)
      snapVer := some s.current } := by
  have hjob : c.writers.store.job = some j := by rw [hc]
  have hnil : s.copies = [] := by
    rw [copies, hidle]
    rfl
  have hothers : s.others = s.held.map Prod.snd := by
    rw [others, h.idle hidle]
    rfl
  have hinputs : (Job.copies c.writers.store.job).map FileMeta.number =
      j.job.inputs.map FileMeta.number := by
    rw [hjob]
    show (j.outputs ++ j.job.inputs).map FileMeta.number = _
    rw [hout, List.nil_append]
  have hused : ∀ n ∈ j.job.inputs.map FileMeta.number, n ∈ s.live := fun n hn => by
    obtain ⟨fm, hfm, rfl⟩ := List.mem_map.1 hn
    exact h.tables.used _ h.current _ (List.mem_map_of_mem (hin fm hfm))
  refine ⟨?_, ?_, fun hnone => ?_, fun j' hj' => ?_,
    h.readers_congr hr fun _ _ _ => Iff.rfl, h.once, ?_⟩
  · have hheap := (h.heap.share List.mem_cons_self).copy (j.job.inputs.map FileMeta.number)
    rw [hnil, List.append_nil, hothers] at hheap
    show Heap.Sound _ _ _ ((Job.copies c.writers.store.job).map FileMeta.number)
    rw [hinputs]
    exact hheap
  · rw [store, hc]
    exact h.current
  · exact absurd (hjob.symm.trans hnone) (Option.some_ne_none j)
  · obtain rfl : j = j' := Option.some.inj (hjob.symm.trans hj')
    refine ⟨s.current, s.store.version, rfl, h.current, hin, fun n hn => (h.tables.doomed n ?_).2⟩
    rw [store, hc] at hn
    exact hn
  · show DB.TablesHeld c.writers.store _ _
    rw [hc]
    refine (h.tables.newJob (some j) hout (by simp [Job.writerNumbers, hwriter]) (fun fm hfm =>
      hused _ (List.mem_map_of_mem hfm)) pending).mono (fun o ho => ho) fun n => ?_
    show n ∈ Heap.live Version.numbers ((s.heap.share s.current).copy _)
      ((Job.copies c.writers.store.job).map FileMeta.number) ↔ n ∈ s.live
    rw [hinputs]
    have hlive := (s.heap.live_copy Version.numbers s.copies
      (j.job.inputs.map FileMeta.number)).mem_iff (a := n)
    rw [hnil, List.append_nil, List.mem_append] at hlive
    rw [live, hnil]
    exact hlive.trans (or_iff_right_of_imp fun hn => by simpa [live, hnil] using hused n hn)

theorem pick (h : s.Sound) (hr : c.readers = s.clients.readers) {pq : SourceQueue}
    (hstep : s.store.pick pq = some c.writers.store) : (s.engine c (.pick pq)).Sound := by
  obtain ⟨-, hidle, ⟨-, hc⟩ | ⟨-, sources, -, hc⟩⟩ := DB.pick_shape hstep
  · have hengine : s.engine c (.pick pq) = { s with clients := c } := by
      simp only [engine, hc, hidle]
    rw [hengine]
    exact h.frame (fun id => by rw [Clients.holds, hr, Clients.holds]) (by rw [hc]) (by rw [hc])
      (by rw [hc]) (by rw [hc]) (by rw [hc])
  · have hengine := h.beginRound hr hidle hc (pickCompaction_inputs _ _ _) rfl rfl
    simp only [engine, hc] at hengine ⊢
    exact hengine

/-- The round goes on, and may refer to more tables. -/
theorem advance (h : s.Sound) (hr : c.readers = s.clients.readers) {j j' : Job}
    (hj : s.store.job = some j) (hj' : c.writers.store.job = some j') (hsame : j'.job = j.job)
    (hver : c.writers.store.version = s.store.version)
    (hdoomed : c.writers.store.doomed = s.store.doomed) (numbers : List Nat)
    (hcopies : (numbers ++ s.copies).Perm ((Job.copies (some j')).map FileMeta.number))
    (htables : ∀ live, (∀ n, n ∈ live ↔ n ∈ numbers ∨ n ∈ s.live) →
      c.writers.store.TablesHeld s.heap.objects live) :
    Sound { s with clients := c, heap := s.heap.copy numbers } := by
  have hcopies' : (numbers ++ s.copies).Perm
      (copies { s with clients := c, heap := s.heap.copy numbers }) := by
    show (numbers ++ s.copies).Perm ((Job.copies c.writers.store.job).map FileMeta.number)
    rw [hj']
    exact hcopies
  refine ⟨(h.heap.copy numbers).perm (List.Perm.refl _) hcopies', ?_, fun hnone => ?_,
    fun j₁ hj₁ => ?_, h.readers_congr hr fun _ _ _ => Iff.rfl, h.once, htables _ fun n => ?_⟩
  · rw [store, hver]
    exact h.current
  · exact absurd (hj'.symm.trans hnone) (Option.some_ne_none j')
  · obtain rfl : j' = j₁ := Option.some.inj (hj'.symm.trans hj₁)
    rw [store, hsame, hdoomed]
    exact h.round j hj
  · have hlive := (s.heap.live_copy Version.numbers s.copies numbers).mem_iff (a := n)
    rw [List.mem_append] at hlive
    refine Iff.trans ?_ hlive
    exact (((hcopies'.symm.append_left _).append_right _)).mem_iff

theorem startWriter (h : s.Sound) (hr : c.readers = s.clients.readers)
    (hstep : s.store.startWriter = some c.writers.store) : (s.engine c .startWriter).Sound := by
  obtain ⟨job, chunk, chunks, outputs, hj, -, hc⟩ := DB.startWriter_inv hstep
  refine h.advance hr hj (congrArg DB.job hc) rfl (by rw [hc]) (by rw [hc]) [] ?_
    fun live hlive => ?_
  · rw [copies, hj]
    exact List.Perm.refl _
  · exact (h.tables.startWriter hstep).mono (fun o ho => ho) fun n => by simpa using hlive n

/-- `outputs.push_back`. -/
theorem finishWriter (h : s.Sound) (hr : c.readers = s.clients.readers)
    (hstep : s.store.finishWriter = some c.writers.store) : (s.engine c .finishWriter).Sound := by
  obtain ⟨job, chunks, number, chunk, outputs, file, fm, hj, hbuild, hc⟩ :=
    DB.finishWriter_shape hstep
  refine h.advance hr hj (congrArg DB.job hc) rfl (by rw [hc]) (by rw [hc]) _ ?_
    fun live hlive => h.tables.finishWriter hstep hlive
  have hnum : fm.number = number := congrArg FileMeta.number (buildTable_iff.1 hbuild).2.2.2
  rw [copies, hj]
  show (number :: (outputs ++ job.inputs).map FileMeta.number).Perm
    (((outputs ++ [fm]) ++ job.inputs).map FileMeta.number)
  rw [List.append_assoc, List.map_append, List.map_append, ← hnum]
  exact List.perm_middle.symm

/-- The end of a round, from the state in which only its own references are left to give up. -/
theorem endRound {t : Refs} {j : Job} {v : Nat} (hsnap : t.snapVer = some v)
    (hheap : t.heap.Sound Version.numbers (t.current :: t.others)
      ((Job.copies (some j)).map FileMeta.number))
    (hcur : (t.current, t.store.version) ∈ t.heap.objects) (hjob : t.store.job = none)
    (hreaders : ∀ id ver, t.clients.holds id = some ver ↔
      ∃ v, (id, v) ∈ t.held ∧ (v, ver) ∈ t.heap.objects)
    (honce : (t.held.map Prod.fst).Nodup)
    (htables : t.store.TablesHeld t.heap.objects
      (t.heap.live Version.numbers ((Job.copies (some j)).map FileMeta.number))) :
    (t.endRound j).Sound := by
  have hend : t.endRound j = { t with
      heap := (t.heap.release Version.numbers v).discard
        ((Job.copies (some j)).map FileMeta.number)
      snapVer := none } := by
    simp only [Refs.endRound, hsnap, Option.elim_some]
  rw [hend]
  have hothers : (t.current :: t.others).Perm (v :: t.current :: t.held.map Prod.snd) := by
    rw [others, hsnap]
    exact List.Perm.swap _ _ _
  have hfront := hheap.perm hothers (List.Perm.refl _)
  have hnil : copies { t with
      heap := (t.heap.release Version.numbers v).discard
        ((Job.copies (some j)).map FileMeta.number)
      snapVer := none } = [] := by
    show (Job.copies t.store.job).map FileMeta.number = []
    rw [hjob]
    rfl
  have hobj : ∀ {w : Nat} {ver : Version}, w ∈ t.current :: t.held.map Prod.snd →
      ((w, ver) ∈ (t.heap.release Version.numbers v).objects ↔ (w, ver) ∈ t.heap.objects) :=
    fun hw => hfront.mem_release hw
  refine ⟨?_, (hobj List.mem_cons_self).2 hcur, fun _ => rfl, fun j' hj' => ?_,
    fun id ver => (hreaders id ver).trans ?_, honce, ?_⟩
  · have hlast := hfront.release
    rw [← List.append_nil ((Job.copies (some j)).map FileMeta.number)] at hlast
    rw [hnil]
    exact hlast.discard
  · exact absurd (hjob.symm.trans hj') (Option.some_ne_none j').symm
  · refine exists_congr fun w => and_congr_right fun hw => (hobj ?_).symm
    exact List.mem_cons_of_mem _ (List.mem_map_of_mem hw)
  · refine htables.mono (Heap.release_objects v) fun n => ?_
    rw [live, hnil]
    refine ((Heap.live_discard _ _ _ _).trans ?_).mem_iff
    rw [List.append_nil]
    exact t.heap.live_release _ _ v

theorem commit (h : s.Sound) (hr : c.readers = s.clients.readers)
    (hstep : s.store.commit = some c.writers.store) : (s.engine c .commit).Sound := by
  obtain ⟨job, outputs, hj, hcases⟩ := DB.commit_inv hstep
  obtain ⟨v, ver, hsnap, -⟩ := h.round _ hj
  have hcopies : (Job.copies (some ⟨job, [], none, outputs⟩)).map FileMeta.number = s.copies := by
    rw [copies, hj]
  obtain ⟨rfl, hc⟩ | ⟨hne, hc⟩ := hcases
  · have hengine : s.engine c .commit = Refs.endRound { s with clients := c }
        ⟨job, [], none, []⟩ := by
      simp only [engine, hj]
      rfl
    rw [hengine]
    refine endRound hsnap (hcopies ▸ h.heap) ?_ (by rw [store, hc])
      (h.readers_congr hr fun _ _ _ => Iff.rfl) h.once ?_
    · rw [store, hc]
      exact h.current
    · rw [hcopies, store, hc]
      exact h.tables.newJob none rfl rfl (fun fm hfm => absurd hfm List.not_mem_nil) _
  · have hengine : s.engine c .commit = Refs.endRound (install { s with clients := c })
        ⟨job, [], none, outputs⟩ := by
      simp only [engine, hj, List.isEmpty_iff, if_neg hne]
    rw [hengine]
    refine endRound hsnap (hcopies ▸ h.heap.replace _) (h.heap.new_mem_replace _)
      (by rw [install, store, hc]) (h.readers_congr hr fun w hw ver => ?_) h.once ?_
    · exact h.heap.mem_replace _ (List.mem_append_right _ hw)
    · rw [hcopies]
      refine h.tables.commit h.current hj (congrArg DB.version hc) (by rw [install, store, hc])
        (congrArg DB.doomed hc) (by rw [install, store, hc]) (by rw [install, store, hc])
        (Heap.replace_objects _ _) fun n => ?_
      exact (s.heap.live_replace Version.numbers s.copies s.current _).mem_iff.trans List.mem_append

theorem engine (h : s.Sound) (hr : c.readers = s.clients.readers) {ev : Event}
    (hw : ev.ofWriters = false) (hun : ∀ n, ev ≠ .unlink n)
    (hstep : s.store.step ev = some c.writers.store) : (s.engine c ev).Sound := by
  cases ev with
  | assign ops => simp [Event.ofWriters] at hw
  | apply coins => simp [Event.ofWriters] at hw
  | reopen opts coins => simp [Event.ofWriters] at hw
  | unlink number => exact absurd rfl (hun number)
  | flush =>
    simp only [Refs.engine, DB.flushes, decide_eq_true_eq]
    split
    · rename_i hne
      exact h.flush hr hstep hne
    · rename_i hz
      obtain ⟨-, hc⟩ | ⟨hne, -⟩ := DB.flush_shape hstep
      · exact h.unchanged hr hc
      · exact absurd hne hz
  | maybeFlush =>
    simp only [Refs.engine, DB.flushes, decide_eq_true_eq]
    obtain ⟨ht, hf⟩ | ⟨ht, hc⟩ := DB.maybeFlush_inv hstep
    · split
      · rename_i hne
        exact h.flush hr hf hne.2
      · rename_i hz
        obtain ⟨-, hc⟩ | ⟨hne, -⟩ := DB.flush_shape hf
        · exact h.unchanged hr hc
        · exact absurd ⟨ht, hne⟩ hz
    · rw [if_neg fun hne => ht hne.1]
      exact h.unchanged hr hc
  | pick pq => exact h.pick hr hstep
  | startWriter => exact h.startWriter hr hstep
  | finishWriter => exact h.finishWriter hr hstep
  | commit => exact h.commit hr hstep
  | getSnapshot | releaseSnapshot _ | compactCall | compactWake =>
    obtain ⟨snaps, pending, force, waiting, hc⟩ := DB.calls_shape rfl hstep
    exact h.frame (fun id => by rw [Clients.holds, hr, Clients.holds]) (by rw [hc]) (by rw [hc])
      (by rw [hc]) (by rw [hc]) (by rw [hc])

end Engine

theorem write (h : s.Sound) {w : Writers} {ev : WriteEvent} (hev : ∀ e, ev ≠ .engine e)
    (hstep : s.clients.writers.step ev = some w) :
    Sound { s with clients := { s.clients with writers := w } } := by
  obtain ⟨seq, wal, mem, hw⟩ := Writers.store_of_step hev hstep
  exact h.frame (fun id => rfl) (by rw [hw]) (by rw [hw]) (by rw [hw]) (by rw [hw]) (by rw [hw])

/-- A destructor gives a table up. -/
theorem drop (h : s.Sound) {number : Nat} (hstep : s.drop number = some s') : s'.Sound := by
  obtain ⟨⟨heap, dead⟩, hdrop, hstep⟩ := Option.bind_eq_some_iff.1 hstep
  obtain ⟨hheap, hdead⟩ := h.heap.drop hdrop
  have hlive := s.heap.live_drop Version.numbers s.copies hdrop
  have hobj : heap.objects = s.heap.objects := by
    obtain ⟨-, -, rfl⟩ := Heap.drop_inv hdrop
    rfl
  have hlive' : ∀ n, n ∈ s.live ↔ n = number ∨ n ∈ live { s with heap := heap } := fun n =>
    hlive.mem_iff.trans List.mem_cons
  have hused : ∀ o ∈ s.heap.objects, ∀ n ∈ o.2.numbers, n ∈ live { s with heap := heap } :=
    fun o ho n hn => mem_live.2 (Or.inl ⟨o, hobj.symm ▸ ho, hn⟩)
  have hcopies : ∀ fm ∈ Job.copies s.store.job, fm.number ∈ live { s with heap := heap } :=
    fun fm hfm => mem_live.2 (Or.inr (Or.inl (List.mem_map_of_mem hfm)))
  dsimp only at hstep
  split at hstep
  · rename_i hcond
    obtain ⟨hdied, hmarked⟩ := Bool.and_eq_true_iff.1 hcond
    obtain ⟨c, hwrite, rfl⟩ := Option.map_eq_some_iff.1 hstep
    obtain ⟨w, hw, rfl⟩ := Clients.write_inv hwrite
    obtain ⟨-, db, hunlink, rfl⟩ := Writers.engine_inv hw
    have htables := h.tables.unlink hunlink hlive' (hdead.1 hdied) hused hcopies
    obtain ⟨-, rfl⟩ := DB.unlink_inv hunlink
    refine ⟨hheap, hobj.symm ▸ h.current, h.idle, fun j hj => ?_, ?_, h.once, hobj.symm ▸ htables⟩
    · obtain ⟨v, ver, hsnap, hmem, hin, hkept⟩ := h.round j hj
      exact ⟨v, ver, hsnap, hobj.symm ▸ hmem, hin, fun n hn => hkept n (List.mem_filter.1 hn).1⟩
    · rw [hobj]
      exact h.readers
  · rename_i hcond
    obtain rfl := Option.some.inj hstep
    have hkept : ∀ n ∈ s.store.doomed, n ∈ live { s with heap := heap } := fun n hn => by
      rcases (hlive' n).1 (h.tables.doomed n hn).1 with rfl | hmem
      · by_contra hno
        exact hcond (Bool.and_eq_true_iff.2 ⟨hdead.2 hno, List.contains_iff_mem.2 hn⟩)
      · exact hmem
    refine ⟨hheap, hobj.symm ▸ h.current, h.idle, ?_, ?_, h.once, ?_⟩
    · rw [hobj]
      exact h.round
    · rw [hobj]
      exact h.readers
    · rw [hobj]
      exact h.tables.lose (fun n hn => (hlive' n).2 (Or.inr hn)) hused hcopies hkept

theorem step (h : s.Sound) {ev : RefEvent} (hstep : s.step ev = some s') : s'.Sound := by
  cases ev with
  | drop number => exact h.drop hstep
  | client ev =>
    rw [Refs.step] at hstep
    split at hstep
    · simp at hstep
    · rename_i hun
      obtain ⟨c, hc, rfl⟩ := Option.map_eq_some_iff.1 hstep
      cases ev with
      | ask q =>
        obtain rfl := Option.some.inj hc
        exact h.frame (Clients.holds_ask _ q) rfl rfl rfl rfl rfl
      | take id => exact h.take hc
      | answer id pq => exact h.answer hc
      | write ev =>
        obtain ⟨w, hw, rfl⟩ := Clients.write_inv hc
        cases ev with
        | engine ev =>
          obtain ⟨hev, db, hdb, hstore⟩ := Writers.engine_inv hw
          refine h.engine (c := { s.clients with writers := w }) rfl hev (fun n he => hun ?_) ?_
          · rw [he]
            rfl
          · rw [hstore]
            exact hdb
        | call op => exact h.write (fun _ => WriteEvent.noConfusion) hw
        | lead id => exact h.write (fun _ => WriteEvent.noConfusion) hw
        | apply id coins => exact h.write (fun _ => WriteEvent.noConfusion) hw
        | finish id => exact h.write (fun _ => WriteEvent.noConfusion) hw
        | wake id => exact h.write (fun _ => WriteEvent.noConfusion) hw

/-- What a read took is there until it returns. -/
theorem inDir (h : s.Sound) {id : Nat} {ver : Version} (hid : s.clients.holds id = some ver) :
    ∀ fm ∈ ver.allFiles, fm.InDir s.store.dir.sst := by
  obtain ⟨v, -, hobj⟩ := (h.readers id ver).1 hid
  exact h.tables.inDir _ hobj

/-- A marked table is one that a read holds, or it is being given up. -/
theorem doomed_held (h : s.Sound) {n : Nat} (hn : n ∈ s.store.doomed) :
    n ∈ s.heap.dying ∨ ∃ id ver, s.clients.holds id = some ver ∧ n ∈ ver.numbers := by
  -- the round in progress began after the mark was set
  have hround : ∀ v ver, s.snapVer = some v → (v, ver) ∈ s.heap.objects → n ∉ ver.numbers := by
    intro v ver hv hobj
    cases hj : s.store.job with
    | none => exact absurd (hv.symm.trans (h.idle hj)) (Option.some_ne_none v)
    | some j =>
      obtain ⟨v', ver', hv', hobj', -, hkept⟩ := h.round j hj
      obtain rfl : v = v' := Option.some.inj (hv.symm.trans hv')
      exact h.heap.unique hobj hobj' ▸ hkept n hn
  have hinputs : n ∉ (Job.inputsOf s.store.job).map FileMeta.number := fun hin => by
    obtain ⟨fm, hfm, rfl⟩ := List.mem_map.1 hin
    cases hj : s.store.job with
    | none =>
      rw [hj] at hfm
      exact absurd hfm List.not_mem_nil
    | some j =>
      obtain ⟨v, ver, hv, hobj, hsub, -⟩ := h.round j hj
      rw [hj] at hfm
      exact hround v ver hv hobj (List.mem_map_of_mem (hsub fm hfm))
  obtain ⟨hmem, hcur⟩ := h.tables.doomed n hn
  rcases mem_live.1 hmem with ⟨⟨v, ver⟩, hobj, hver⟩ | hcopy | hdying
  · rcases List.mem_cons.1 (h.heap.mem_refs hobj) with rfl | hv
    · exact absurd (h.heap.unique hobj h.current ▸ hver) hcur
    · rcases List.mem_append.1 hv with hv | hv
      · exact absurd hver (hround v ver (Option.mem_toList.1 hv) hobj)
      · obtain ⟨⟨id, _⟩, hheld, rfl⟩ := List.mem_map.1 hv
        exact Or.inr ⟨id, ver, (h.readers id ver).2 ⟨_, hheld, hobj⟩, hver⟩
  · rw [copies, Job.copies, List.map_append] at hcopy
    rcases List.mem_append.1 hcopy with hout | hin
    · obtain ⟨fm, hfm, rfl⟩ := List.mem_map.1 hout
      exact absurd hn (h.tables.outputs fm hfm).2.1
    · exact absurd hin hinputs
  · exact Or.inl hdying

end Sound

/-! ## Every run -/

/-- A step is one of the clients, or only a reference goes away. -/
theorem clients_step {ev : RefEvent} (hstep : s.step ev = some s') :
    s'.clients = s.clients ∨ ∃ ev', s.clients.step ev' = some s'.clients := by
  cases ev with
  | client ev =>
    rw [step] at hstep
    split at hstep
    · simp at hstep
    · obtain ⟨c, hc, rfl⟩ := Option.map_eq_some_iff.1 hstep
      exact Or.inr ⟨ev, hc.trans (congrArg some (clients_track s c ev).symm)⟩
  | drop number =>
    obtain ⟨⟨heap, dead⟩, -, hstep⟩ := Option.bind_eq_some_iff.1 hstep
    dsimp only at hstep
    split at hstep
    · obtain ⟨c, hc, rfl⟩ := Option.map_eq_some_iff.1 hstep
      exact Or.inr ⟨.write (.engine (.unlink number)), hc⟩
    · exact Or.inl (congrArg clients (Option.some.inj hstep)).symm

end Refs

theorem Writers.tidy_step {w w' : Writers} {ev : WriteEvent} (h : w.store.Tidy)
    (hstep : w.step ev = some w') : w'.store.Tidy := by
  by_cases hev : ∃ e, ev = .engine e
  · obtain ⟨e, rfl⟩ := hev
    obtain ⟨-, db, hdb, rfl⟩ := Writers.engine_inv hstep
    exact h.step hdb
  · obtain ⟨seq, wal, mem, he⟩ := Writers.store_of_step (fun e he => hev ⟨e, he⟩) hstep
    rw [he]
    exact ⟨h.sst, h.tmp⟩

theorem Clients.tidy_step {c c' : Clients} {ev : ClientEvent} (h : c.writers.store.Tidy)
    (hstep : c.step ev = some c') : c'.writers.store.Tidy := by
  cases ev with
  | write ev =>
    obtain ⟨w, hw, rfl⟩ := Clients.write_inv hstep
    exact Writers.tidy_step h hw
  | ask q =>
    obtain rfl := Option.some.inj hstep
    exact h
  | take id =>
    obtain ⟨q, -, rfl⟩ := Clients.take_inv hstep
    exact h
  | answer id pq =>
    obtain ⟨r, res, -, -, rfl⟩ := Clients.answer_inv hstep
    exact h

theorem Refs.sound_start {db : DB} (hw : db.Stored) (hj : db.job = none) (hd : db.doomed = []) :
    (Refs.start db).Sound := by
  have hcopies : (Refs.start db).copies = [] := by
    show (Job.copies db.job).map FileMeta.number = []
    rw [hj]
    rfl
  have hlive : ∀ n, n ∈ (Refs.start db).live ↔ n ∈ db.version.numbers := fun n => by
    rw [Refs.live, hcopies]
    simp [Heap.live, Refs.start, Heap.make]
  have hobj : ∀ o ∈ (Refs.start db).heap.objects, o = (0, db.version) := fun o ho =>
    List.mem_singleton.1 ho
  have htables : db.TablesHeld (Refs.start db).heap.objects (Refs.start db).live := by
    have htab := hw.tables
    refine ⟨fun o ho n hn => ?_, fun fm hfm => ?_, fun n hn => ?_, fun o ho fm hfm => ?_,
      fun fm hfm => ?_, fun n hn => ?_, fun n hn => ?_⟩
    · rw [hobj o ho] at hn
      exact (hlive n).2 hn
    · rw [hj] at hfm
      exact absurd hfm List.not_mem_nil
    · obtain ⟨fm, hfm, rfl⟩ := List.mem_map.1 ((hlive n).1 hn)
      exact htab.used_lt _ (List.mem_append_left _ (List.mem_map_of_mem
        (List.mem_append_left _ hfm)))
    · rw [hobj o ho] at hfm
      have hmem := List.mem_append_left (Job.outputsOf db.job) hfm
      exact ⟨_, htab.onDisk fm hmem, (htab.ok fm hmem).open⟩
    · rw [hj] at hfm
      exact absurd hfm List.not_mem_nil
    · rw [hj] at hn
      exact absurd hn List.not_mem_nil
    · rw [hd] at hn
      exact absurd hn List.not_mem_nil
  refine ⟨?_, List.mem_cons_self, fun _ => rfl, fun j hj' => ?_, fun id ver => ?_, List.nodup_nil,
    htables⟩
  · rw [hcopies]
    exact Heap.Sound.empty.make db.version
  · exact absurd (hj.symm.trans hj') (Option.some_ne_none j).symm
  · refine iff_of_false (fun hnone => Option.some_ne_none ver hnone.symm) fun hheld => ?_
    obtain ⟨v, hv, -⟩ := hheld
    exact List.not_mem_nil hv

/-- **Files go away with their last reference, and not before.** Take a sound store without a round
    in progress, and any run of readers, writers and the compaction thread in which files are
    deleted only where a counter of references says so. All files of a version that a pending read
    took are in the directory, and each opens as its table. Every `.sst` file in the directory is
    one of the current version, an output of the round in progress, one of a version that a
    pending read took, or its last reference is just being given up. The run is also one of the
    clients. -/
theorem files_in_use {db : DB} (hw : db.Stored) (ht : db.Tidy) (hj : db.job = none)
    (hd : db.doomed = []) {evs : List RefEvent} {s : Refs}
    (hrun : (Refs.start db).run evs = some s) :
    (∃ evs', (Clients.start db).run evs' = some s.clients) ∧
    (∀ id ver, s.clients.holds id = some ver → ∀ fm ∈ ver.allFiles, fm.InDir s.store.dir.sst) ∧
    ∀ p ∈ s.store.dir.sst,
      p.1 ∈ (s.store.version.allFiles ++ Job.outputsOf s.store.job).map FileMeta.number ∨
      p.1 ∈ s.heap.dying ∨ ∃ id ver, s.clients.holds id = some ver ∧ p.1 ∈ ver.numbers := by
  have hsound : s.Sound := Steps.run_invariant (P := fun _ _ => True)
    (fun _ _ _ hI _ hs => hI.step hs) (Refs.sound_start hw hj hd) (.of_forall fun _ _ => trivial)
    hrun
  obtain ⟨evs', hclients⟩ :=
    Steps.run_projects Refs.clients (fun _ _ _ hs => Refs.clients_step hs) hrun
  have htidy : s.store.Tidy := Steps.run_invariant (P := fun _ _ => True)
    (I := fun c : Clients => c.writers.store.Tidy) (fun _ _ _ hI _ hs => Clients.tidy_step hI hs) ht
    (.of_forall fun _ _ => trivial) hclients
  refine ⟨⟨evs', hclients⟩, fun id ver hid => hsound.inDir hid, fun p hp => ?_⟩
  rcases htidy.sst p hp with hlive | hdoomed
  · exact Or.inl hlive
  · exact Or.inr (hsound.doomed_held hdoomed)

/-- A read takes a version of two tables, and a round merges them. All references to the two but
    those of the read's version are given up. -/
def mergedWhileRead : List RefEvent :=
  ([.call (putByte 1 1), .apply 0 [], .finish 0, .engine .flush, .call (putByte 2 1), .apply 1 [],
    .finish 1, .engine .flush] : List WriteEvent).map (fun ev => .client (.write ev)) ++
  [.drop 1, .client (.ask (.get [1])), .client (.take 0)] ++
  ([.compactCall, .pick plainQueue, .startWriter, .finishWriter, .commit] : List Event).map
    (fun ev => .client (.write (.engine ev))) ++
  [.drop 3, .drop 1, .drop 2]

/-- The read keeps the files of the merged tables; they go when it returns. -/
theorem files_in_use_read : ∃ s s' ver, (Refs.start (DB.create {})).run mergedWhileRead = some s ∧
    s.clients.holds 0 = some ver ∧ ver.numbers = [1, 2] ∧
    (∀ fm ∈ ver.allFiles, fm.InDir s.store.dir.sst) ∧
    s.run [.client (.answer 0 plainQueue), .drop 2, .drop 1] = some s' ∧
    s'.store.dir.sst.map Prod.fst = [3] := by
  have hrun : (((Refs.start (DB.create {})).run mergedWhileRead).bind fun s =>
      (s.run [.client (.answer 0 plainQueue), .drop 2, .drop 1]).map fun s' =>
        decide ((s.clients.holds 0).map Version.numbers = some [1, 2] ∧
          s'.store.dir.sst.map Prod.fst = [3])) = some true := by
    decide +kernel
  obtain ⟨s, hs, hrest⟩ := Option.bind_eq_some_iff.1 hrun
  obtain ⟨s', hs', hcheck⟩ := Option.map_eq_some_iff.1 hrest
  obtain ⟨hheld, hgone⟩ := of_decide_eq_true hcheck
  obtain ⟨ver, hver, hnums⟩ := Option.map_eq_some_iff.1 hheld
  obtain ⟨-, hin, -⟩ := files_in_use (DB.wellFormed_create {}).stored (DB.tidy_create {}) rfl rfl hs
  exact ⟨s, s', ver, hs, hver, hnums, hin 0 ver hver, hs', hgone⟩

end Keystone
