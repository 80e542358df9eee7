/-
  Reads across crashes.

  The abstract store keeps a map that is durable and the writes of the batch in flight; a crash
  loses the batch, or all of it but its first writes if it comes while the batch is logged. The
  engine follows it through every run of calls, flushes, rounds, reopens and crashes at any file
  operation, and what get and scan return is what the durable map holds (`crash_reads`). The steps
  have to meet `LimitsOk` and `ExactOk`. A crash tears the append of a batch at any byte; the
  append of a MANIFEST snapshot is there or not.

  * `Ready mem ver`: an open that finds `mem` in the log and the files of `ver` leads to a store
    whose reads are right. The log and the tables may hold copies of the same entries.
  * `DB.Steady`: the invariant; `DB.Steady.step`, `DB.Steady.crash`: what keeps it.
-/
import Keystone.Cover
import Keystone.CrashAtomic
import Keystone.History

namespace Keystone

/-! ## What an open may find -/

/-- The entries of a log and the files of a version on which reads are right. -/
structure Ready (mem : List Entry) (ver : Version) : Prop where
  nodup : mem.Nodup
  unique : UniqueSeqs (mem ++ ver.allFiles.flatMap FileMeta.contents)
  onTop : ∀ f ∈ ver.allFiles, Covers mem f.contents
  covering : ver.Covering
  disjoint : ver.Disjoint
  l0Numbers : (ver.files 0).Pairwise fun f g => f.number < g.number
  whole : ∀ f ∈ ver.allFiles, KeysWhole (blocksOf f.contents)

namespace Ready

variable {mem : List Entry} {ver : Version} {fm : FileMeta}

theorem of_perm (h : Ready mem ver) {mem' : List Entry} (hp : mem'.Perm mem) : Ready mem' ver :=
  { h with
    nodup := hp.nodup_iff.2 h.nodup
    unique := h.unique.subset fun _ he => (hp.append_right _).mem_iff.1 he
    onTop := fun f hf x hx y hy hk =>
      (h.onTop f hf x (hp.mem_iff.1 hx) y hy hk).imp_right hp.mem_iff.2 }

/-- The log is truncated. -/
theorem nil (h : Ready mem ver) : Ready [] ver :=
  { h with
    nodup := List.nodup_nil
    unique := h.unique.subset fun _ he => List.mem_append_right mem he
    onTop := fun _ _ _ hx => absurd hx List.not_mem_nil }

/-- Newer entries are logged. -/
theorem append_newer (h : Ready mem ver) {new : List Entry}
    (horder : new.Pairwise fun a b => a.seq < b.seq)
    (hnew : ∀ x ∈ new, ∀ y ∈ mem ++ ver.allFiles.flatMap FileMeta.contents, y.seq < x.seq) :
    Ready (new ++ mem) ver :=
  { h with
    nodup := by
      refine List.nodup_append.2 ⟨horder.imp fun hlt he => ?_, h.nodup, fun x hx y hy he => ?_⟩
      · exact absurd (congrArg Entry.seq he) (ne_of_lt hlt)
      · exact absurd (congrArg Entry.seq he).symm (ne_of_lt (hnew x hx y (List.mem_append_left _ hy)))
    unique := by
      rw [List.append_assoc]
      exact (visible_newer horder hnew h.unique []).1
    onTop := fun f hf => (h.onTop f hf).append_newer fun x hx y hy => le_of_lt (hnew x hx y
      (List.mem_append_right _ (List.mem_flatMap.2 ⟨f, hf, hy⟩))) }

/-- Entries of the log are written to a table, and still there. -/
theorem pushL0 (h : Ready mem ver) (hsub : ∀ e ∈ fm.contents, e ∈ mem)
    (hcov : ∀ f ∈ ver.allFiles, Covers fm.contents f.contents)
    (hnum : ∀ f ∈ ver.files 0, f.number < fm.number) (hwhole : KeysWhole (blocksOf fm.contents)) :
    Ready mem (ver.pushL0 fm) := by
  have hfiles : ∀ f ∈ (ver.pushL0 fm).allFiles, f ∈ ver.allFiles ∨ f = fm := fun f hf =>
    (List.mem_append.1 ((allFiles_pushL0 ver fm).mem_iff.1 hf)).imp_right List.mem_singleton.1
  refine ⟨h.nodup, h.unique.subset fun e he => ?_, fun f hf => ?_, h.covering.pushL0 hcov,
    h.disjoint.pushL0, ?_, fun f hf => ?_⟩
  · rcases List.mem_append.1 he with he | he
    · exact List.mem_append_left _ he
    · obtain ⟨f, hf, hef⟩ := List.mem_flatMap.1 he
      rcases hfiles f hf with hf | rfl
      · exact List.mem_append_right _ (List.mem_flatMap.2 ⟨f, hf, hef⟩)
      · exact List.mem_append_left _ (hsub e hef)
  · rcases hfiles f hf with hf | rfl
    · exact h.onTop f hf
    · exact Covers.of_subset hsub
  · rw [files_pushL0_zero, List.pairwise_append]
    refine ⟨h.l0Numbers, List.pairwise_singleton _ _, fun f hf g hg => ?_⟩
    rw [List.mem_singleton.1 hg]
    exact hnum f hf
  · rcases hfiles f hf with hf | rfl
    · exact h.whole f hf
    · exact hwhole

/-- A round commits. -/
theorem commit (h : Ready mem ver) {job : CompactionJob} {outputs : List FileMeta}
    (hok : ∀ f ∈ ver.allFiles, f.Ok) (hne : Nested ver job) (ho : OutputsOk ver job outputs)
    (hcov : OutputsCover job outputs)
    (hnum : outputs.Pairwise fun f g => f.number < g.number)
    (hwhole : ∀ f ∈ outputs, KeysWhole (blocksOf f.contents)) :
    Ready mem (commitVersion ver job outputs) := by
  have hfiles : ∀ f ∈ (commitVersion ver job outputs).allFiles, f ∈ ver.allFiles ∨ f ∈ outputs :=
    fun f hf => (List.mem_append.1 ((allFiles_commit ver job outputs).mem_iff.1 hf)).imp_left
      fun hf => (mem_remaining.1 hf).1
  -- every entry of an output is one of an input
  have htables : ∀ f ∈ (commitVersion ver job outputs).allFiles, ∀ e ∈ f.contents,
      ∃ g ∈ ver.allFiles, e ∈ g.contents := by
    intro f hf e he
    rcases hfiles f hf with hf | hf
    · exact ⟨f, hf, he⟩
    · obtain ⟨g, hg, he⟩ := ho.sub f hf e he
      exact ⟨g, ho.inputs g hg, he⟩
  refine ⟨h.nodup, h.unique.subset fun e he => ?_, fun f hf x hx y hy => ?_,
    h.covering.commit ageOrder_covers hne ho (hcov.over ho), h.disjoint.commit hne.hull ho hok, ?_,
    fun f hf => ?_⟩
  · refine (List.mem_append.1 he).elim (List.mem_append_left _) fun he => ?_
    obtain ⟨f, hf, he⟩ := List.mem_flatMap.1 he
    exact List.mem_append_right _ (List.mem_flatMap.2 (htables f hf e he))
  · obtain ⟨g, hg, hy⟩ := htables f hf y hy
    exact h.onTop g hg x hx y hy
  · by_cases hl : job.outputLevel = 0
    · rw [ho.files_commit_zero hl]
      exact hnum
    · rw [files_commit_of_ne (Ne.symm hl)]
      exact h.l0Numbers.sublist (remaining_sublist job _)
  · exact (hfiles f hf).elim (h.whole f) (hwhole f)

/-- An open sorts the files. -/
theorem reordered (h : Ready mem ver) {dir : Dir} {records : List Wal.Record} {opts : Options}
    {db : DB} (hR : Recoverable dir records ver) (ho : Opened dir records ver opts db) :
    Ready mem db.version := by
  have hall := allFiles_perm ho.files
  have hl0 := ho.files_zero hR.nodup h.l0Numbers
  refine ⟨h.nodup, h.unique.subset fun e he => ?_, fun f hf => h.onTop f (hall.mem_iff.1 hf),
    ⟨hl0 ▸ h.covering.l0, fun i j hij f hf g hg => ?_⟩, ho.disjoint hR.ok h.disjoint,
    hl0 ▸ h.l0Numbers, fun f hf => h.whole f (hall.mem_iff.1 hf)⟩
  · exact ((hall.flatMap_right FileMeta.contents).append_left _).mem_iff.1 he
  · exact h.covering.levels i j hij f ((ho.files i).mem_iff.1 hf) g ((ho.files j).mem_iff.1 hg)

/-- **The open** finds it again, in memory. -/
theorem opened (h : Ready mem ver) {dir : Dir} {records : List Wal.Record} {opts : Options}
    {db : DB} (hp : mem.Perm (records.map Wal.Record.entry)) (hR : Recoverable dir records ver)
    (ho : Opened dir records ver opts db) : Ready db.memtable.entries db.version :=
  (h.reordered hR ho).of_perm (ho.mem.trans hp.symm)

end Ready

/-! ## The invariant -/

/-- A state that can crash at any time, and whose reads are right. -/
structure DB.Steady (db : DB) : Prop where
  durable : db.Durable
  seqs : db.SeqsOk
  ready : Ready db.memtable.entries db.version
  runs : ∀ j, db.job = some j → RoundRuns db j
  nested : ∀ j, db.job = some j → Nested db.version j.job
  outputs : ∀ f ∈ Job.outputsOf db.job, KeysWhole (blocksOf f.contents)

/-- The state behind an open: readers see `s`, and every entry is one of `es`. -/
structure DB.Recovers (db : DB) (s : Contents) (es : List Entry) : Prop where
  steady : db.Steady
  idle : db.job = none ∧ db.inflight = [] ∧ db.liveSnapshots = [] ∧ db.forceCompact = false
  contents : db.contents = s
  entries : ∀ e ∈ db.entries, e ∈ es

theorem DB.Recovers.of_same {db : DB} {s s' : Contents} {es es' : List Entry} (h : db.Recovers s es)
    (hs : s = s') (hes : ∀ e ∈ es, e ∈ es') : db.Recovers s' es' :=
  ⟨h.steady, h.idle, h.contents.trans hs, fun e he => hes e (h.entries e he)⟩

namespace DB.Steady

variable {db db' : DB} {ev : Event}

theorem wellFormed (h : db.Steady) : db.WellFormed := h.durable.wellFormed

theorem unique (h : db.Steady) : UniqueSeqs db.entries := h.ready.unique

theorem whole (h : db.Steady) : db.Whole := ⟨h.ready.whole, h.outputs⟩

theorem memtableOnTop (h : db.Steady) : db.MemtableOnTop := by
  intro m hm e he hk
  obtain ⟨f, hf, he⟩ := DB.mem_tables.1 he
  exact h.ready.onTop f hf m hm e he hk

/-- **Reads are right**: `get`. -/
theorem getImpl (h : db.Steady) (key : Bytes) (s : UInt64) :
    db.getImpl key s = .ok (visible db.entries key s) :=
  DB.getImpl_of_covers (fun f hf => (h.wellFormed.okFiles f hf).gets (h.ready.whole f hf))
    h.ready.disjoint (DB.layers_covers h.ready.onTop h.ready.covering) h.unique key s

/-- **Reads are right**: `scan`. -/
theorem scanImpl (h : db.Steady) (pq : SourceQueue) (start last : Bytes) (s : UInt64) :
    ∃ out, db.scanImpl pq start last s = .ok out ∧ (out.Pairwise fun a b => a.1 < b.1) ∧
      ∀ k v, (k, v) ∈ out ↔ start ≤ k ∧ k ≤ last ∧ visible db.entries k s = some v :=
  DB.scanImpl_of_seeks (fun f hf => (h.wellFormed.okFiles f hf).seeks (h.ready.whole f hf)) h.unique
    pq start last s

/-! ## Steps -/

/-- What a flush makes of the files, with a log that has the entries still there. -/
theorem ready_flush (h : db.Steady) {log : List Entry} (hready : Ready log db.version)
    (hsub : ∀ e ∈ db.memtable.entries, e ∈ log) (hwhole : db'.WholeTables)
    (hfit : BlocksFit db.memtable.entries) (hflush : db.flush = some db') :
    Ready log db'.version := by
  rcases DB.flush_inv h.wellFormed.stored hfit hflush with ⟨-, rfl⟩ | ⟨-, fm, -, hnum, -, hcont, rfl⟩
  · exact hready
  · refine hready.pushL0 (hcont ▸ hsub) (hcont ▸ h.ready.onTop) (fun f hf => ?_)
      (hwhole fm ((allFiles_pushL0 db.version fm).mem_iff.2 (List.mem_append_right _
        List.mem_cons_self)))
    rw [hnum]
    exact h.wellFormed.tables.used_lt _ (List.mem_append_left _ (List.mem_map_of_mem
      (List.mem_append_left _ (Version.mem_allFiles.2 ⟨0, hf⟩))))

/-- What the end of a round makes of the files. -/
theorem ready_commit (h : db.Steady) {log : List Entry} (hready : Ready log db.version)
    (hok : OrderOk db .commit) (hstep : db.commit = some db') : Ready log db'.version := by
  have hw := h.wellFormed
  obtain ⟨job, outputs, hj, ⟨-, rfl⟩ | ⟨-, rfl⟩⟩ := DB.commit_inv hstep
  · exact hready
  · have hr := h.runs _ hj
    have ho := hr.outputsOk hw hj (hok.l0 _ hj)
    refine hready.commit hw.okFiles (h.nested _ hj) ho (hr.outputsCover h.unique ho) ?_ ?_
    · exact List.pairwise_map.1 (List.pairwise_append.1 hr.numbers).1
    · have hout := h.outputs
      rw [hj] at hout
      exact hout

theorem ready_step (h : db.Steady) (hok : ExactOk db ev)
    (hr : ∀ opts coins, ev ≠ .reopen opts coins) (hstep : db.step ev = some db') :
    Ready db'.memtable.entries db'.version := by
  have hw := h.wellFormed
  cases DB.step_kind hstep with
  | assign ops hev hstep =>
    obtain ⟨-, -, rfl⟩ := DB.assign_inv hstep
    exact h.ready
  | apply coins hev hstep =>
    have hp := db.memtable.entries_applyAll db.inflight coins
    obtain ⟨-, rfl⟩ := DB.apply_inv hstep
    exact (h.ready.append_newer (applied_order h.seqs (.apply coins)) fun x hx y hy =>
      applied_newer h.seqs (show x ∈ db.applied (.apply coins) from hx) hy).of_perm hp
  | flush hev hnew hflush =>
    have hfit : BlocksFit db.memtable.entries := hok.fits.tables _ (by rw [hnew]; simp)
    have hready := h.ready_flush h.ready (fun _ he => he)
      (h.whole.live_step hw.stored hok.fits.tables hok.whole hr hstep) hfit hflush
    rcases DB.flush_inv hw.stored hfit hflush with ⟨-, rfl⟩ | ⟨-, fm, -, -, -, -, rfl⟩
    · exact h.ready
    · rw [show Memtable.fresh.entries = [] from Memtable.entries_fresh]
      exact hready.nil
  | commit hev hstep =>
    subst hev
    have hready := h.ready_commit h.ready hok.toOrderOk hstep
    obtain ⟨job, outputs, -, ⟨-, rfl⟩ | ⟨-, rfl⟩⟩ := DB.commit_inv hstep
    · exact hready
    · exact hready
  | reopen opts coins hev hstep => exact absurd hev (hr opts coins)
  | quiet hev mem ver inflight seq =>
    rw [mem, ver]
    exact h.ready

/-- The round after a step. -/
theorem round_step (h : db.Steady) (hok : OrderOk db ev)
    (hr : ∀ opts coins, ev ≠ .reopen opts coins) (hstep : db.step ev = some db') {j' : Job}
    (hj' : db'.job = some j') : RoundRuns db' j' ∧ Nested db'.version j'.job := by
  have hw := h.wellFormed
  rcases DB.round_before hr hstep hj' with ⟨pq, rfl, -⟩ | ⟨j, hj, hc⟩
  · have hull := hullClear_pick (fun f hf => (hw.okFiles f hf).range_le) h.ready.disjoint hok.range
    have hne := placed_pick ageOrder_covers hw.tables.level hw.okFiles h.ready.covering
      h.ready.disjoint hull
    obtain ⟨hjob, hver, hruns⟩ := RoundRuns.pick hw h.memtableOnTop (fun hb _ hf hout _ hg =>
      hne.outside ageOrder_covers hull hw.okFiles (pickCompaction_inputs _ _ _) hb hf hout hg)
      hok.cuts hstep j' hj'
    exact ⟨hruns, by rw [hjob, hver]; exact hne⟩
  · have hfit := hok.fits.tables
    obtain ⟨hjob, hruns⟩ := (h.runs j hj).step hw h.seqs hj hfit hc hstep j' hj'
    exact ⟨hruns, hjob ▸ (h.nested j hj).step hw hj h.ready.onTop hfit hc hstep⟩

/-- A commit only loses entries. -/
theorem entries_commit (h : db.Steady) (hstep : db.commit = some db') :
    ∀ e ∈ db'.entries, e ∈ db.entries := by
  obtain ⟨job, outputs, hj, -⟩ := DB.commit_inv hstep
  obtain ⟨oldestSnap, stream, hok, -⟩ := (h.runs _ hj).ok
  rcases Keystone.entries_commit hstep hj hok with hsame | hnew
  · exact fun e he => (hsame e).1 he
  · intro e he
    rw [mem_entries_split h.wellFormed.stored hj]
    exact (List.mem_append.1 ((hnew e).1 he)).imp_right fun he =>
      (hok.stream_mem e).1 ((retain_sublist _ _ _ _).subset he)

theorem seqs_step (h : db.Steady) (hwrap : db.NoWrap ev) (hfit : db.TablesFit ev)
    (hr : ∀ opts coins, ev ≠ .reopen opts coins) (hstep : db.step ev = some db') : db'.SeqsOk := by
  by_cases hc : ev = .commit
  · subst hc
    have hsub := h.entries_commit hstep
    obtain ⟨job, outputs, hj, ⟨-, rfl⟩ | ⟨-, rfl⟩⟩ := DB.commit_inv hstep
    · exact h.seqs.of_subset hsub rfl rfl
    · exact h.seqs.of_subset hsub rfl rfl
  · exact h.seqs.step h.wellFormed.stored hwrap hfit hc hr hstep

/-- **Every step within the life of the process keeps the invariant.** -/
theorem step (h : db.Steady) (hok : ExactOk db ev) (hread : db.Within ev)
    (hr : ∀ opts coins, ev ≠ .reopen opts coins) (hstep : db.step ev = some db') : db'.Steady where
  durable := h.durable.step hread hr hstep
  seqs := h.seqs_step hok.wrap hok.fits.tables hr hstep
  ready := h.ready_step hok hr hstep
  runs := fun _ hj => (h.round_step hok.toOrderOk hr hstep hj).1
  nested := fun _ hj => (h.round_step hok.toOrderOk hr hstep hj).2
  outputs := h.whole.outputs_step h.wellFormed.stored hok.fits.tables hok.whole hr hstep

/-- A step shows readers what it applies, and nothing else. -/
theorem contents_step (h : db.Steady) (hfit : db.TablesFit ev)
    (hr : ∀ opts coins, ev ≠ .reopen opts coins) (hstep : db.step ev = some db') (k : Bytes) :
    db'.contents k = valueAfter k (db.contents k) (db.applied ev) := by
  have hvis := visible_step_of_round h.wellFormed h.seqs h.unique h.runs hfit hr hstep
    (Or.inr rfl) k
  rw [(visible_newer (applied_order h.seqs ev) (fun x hx b hb => applied_newer h.seqs hx hb)
    h.unique k).2] at hvis
  exact hvis

/-! ## Opens -/

/-- **An open** of what a steady state may leave. -/
theorem of_open {dir : Dir} {ver : Version} {mem es : List Entry} (hk : dir.Keeps ver mem)
    (hready : Ready mem ver)
    (hes : ∀ e, e ∈ es ↔ e ∈ mem ++ ver.allFiles.flatMap FileMeta.contents) {bound : UInt64}
    (hlt : ∀ e ∈ es, e.seq < bound) {opts : Options} {coins : List (List Bool)}
    (hopen : DB.open opts coins dir = .ok db) :
    db.Recovers (fun k => visible es k uint64Max) es := by
  obtain ⟨records, hp, hR⟩ := hk
  have ho := hR.opened hopen
  obtain ⟨hjob, hinf, hsnap, -, hforce, -⟩ := ho.idle
  have hnone : ∀ j, db.job ≠ some j := fun j hj => nomatch hjob.symm.trans hj
  have hready' := hready.opened hp hR ho
  have hent : ∀ e, e ∈ db.entries ↔ e ∈ es := fun e =>
    (ho.entries_perm.trans (hp.symm.append_right _)).mem_iff.trans (hes e).symm
  have hseqs : db.SeqsOk := by
    refine @Opened.seqsOk _ _ _ _ _ ho hR.ok bound (fun r hr => ?_) fun f hf e he => ?_
    · rw [← Wal.Record.entry_seq]
      exact hlt _ ((hes _).2 (List.mem_append_left _ (hp.mem_iff.2 (List.mem_map_of_mem hr))))
    · exact hlt e ((hes e).2 (List.mem_append_right _ (List.mem_flatMap.2 ⟨f, hf, he⟩)))
  refine ⟨⟨⟨hR.openable.wellFormed hopen, hR.manifestRead hopen⟩, hseqs, hready',
    fun j hj => absurd hj (hnone j), fun j hj => absurd hj (hnone j),
    by simp [hjob, Job.outputsOf]⟩, ⟨hjob, hinf, hsnap, hforce⟩, funext fun k => ?_,
    fun e => (hent e).1⟩
  exact visible_congr hready'.unique hent k uint64Max

/-- Clean close and open. -/
theorem reopen (h : db.Steady) {opts : Options} {coins : List (List Bool)}
    (hstep : db.reopen opts coins = some db') : db'.Recovers db.contents db.entries := by
  obtain ⟨-, -, -, -, hopen⟩ := DB.reopen_inv hstep
  exact of_open h.durable.recoverable h.ready (fun _ => Iff.rfl) h.seqs.entries_lt hopen

/-! ## Crashes -/

/-- Within the life of the process a step has no entries but those it applies. -/
theorem entries_subset (h : db.Steady) (hfit : db.TablesFit ev)
    (hr : ∀ opts coins, ev ≠ .reopen opts coins) (hstep : db.step ev = some db') :
    ∀ e ∈ db'.entries, e ∈ db.applied ev ++ db.entries := by
  by_cases hc : ev = .commit
  · subst hc
    exact h.entries_commit hstep
  · exact fun e => (entries_step h.wellFormed.stored hfit hstep hc hr).mem_iff.1

/-- What the step in progress would have led to. -/
theorem step_or_reopen (h : db.Steady) (hok : ExactOk db ev)
    (hread : db.Within ev) (hev : ∀ coins, ev ≠ .apply coins)
    (hstep : db.step ev = some db') :
    db'.Steady ∧ db'.contents = db.contents ∧ ∀ e ∈ db'.entries, e ∈ db.entries := by
  by_cases hr : ∃ opts coins, ev = .reopen opts coins
  · obtain ⟨opts, coins, rfl⟩ := hr
    have hre := h.reopen hstep
    exact ⟨hre.steady, hre.contents, hre.entries⟩
  · have hre : ∀ opts coins, ev ≠ .reopen opts coins := fun opts coins he => hr ⟨opts, coins, he⟩
    have happ : db.applied ev = [] := by
      cases ev with
      | apply coins => exact absurd rfl (hev coins)
      | _ => rfl
    refine ⟨h.step hok hread hre hstep, funext fun k => ?_, fun e he => ?_⟩
    · rw [h.contents_step hread.tables hre hstep, happ]
      rfl
    · have hmem := h.entries_subset hread.tables hre hstep e he
      rwa [happ] at hmem

/-- **A crash outside the append of a batch** loses nothing that readers had seen. -/
theorem crash (h : db.Steady) {c : CrashAt} (hok : ExactOk db c.ev)
    (hread : LimitsOk db (.crash c)) (hev : ∀ coins, c.ev ≠ .apply coins)
    (hcrash : db.crash c = some db') : db'.Recovers db.contents db.entries := by
  obtain ⟨⟨db₁, hstep⟩, hopen⟩ := DB.crash_inv hcrash
  obtain ⟨h₁, hsame, hsub⟩ := h.step_or_reopen hok hread hev hstep
  rcases h.durable.crashIn_keeps hread hev hstep c.done c.cut with hk | ⟨hflush, hfit, hk⟩ | hk
  · exact of_open (hk.crashOpens c.opens) h.ready (fun _ => Iff.rfl) h.seqs.entries_lt hopen
  · -- the log and a table hold the same entries
    refine (of_open (hk.crashOpens c.opens) (h.ready_flush h.ready
      (fun _ he => he) h₁.ready.whole hfit hflush)
      (h.durable.mem_entries_flushed hfit hflush) h₁.seqs.entries_lt hopen).of_same ?_ hsub
    exact hsame
  · exact (of_open (hk.crashOpens c.opens) h₁.ready (fun _ => Iff.rfl) h₁.seqs.entries_lt
      hopen).of_same hsame hsub

/-- First records of the batch in flight, in the log. -/
theorem kept (h : db.Steady) {kept : List Wal.Record} (hkept : kept <+: db.inflight) :
    Ready (kept.map Wal.Record.entry ++ db.memtable.entries) db.version ∧
      (∀ k, visible (kept.map Wal.Record.entry ++ db.entries) k uint64Max =
        valueAfter k (db.contents k) (kept.map Wal.Record.entry)) ∧
      ∀ e ∈ kept.map Wal.Record.entry ++ db.entries, e.seq < db.nextSeq := by
  have hnew : ∀ x ∈ kept.map Wal.Record.entry, ∀ y ∈ db.entries, y.seq < x.seq := fun x hx y hy =>
    applied_newer h.seqs (show x ∈ db.applied (.apply []) from
      (hkept.sublist.map Wal.Record.entry).subset hx) hy
  have horder : (kept.map Wal.Record.entry).Pairwise fun a b => a.seq < b.seq :=
    (applied_order h.seqs (.apply [])).sublist (hkept.sublist.map Wal.Record.entry)
  refine ⟨h.ready.append_newer horder hnew, fun k => (visible_newer horder hnew h.unique k).2,
    fun e he => ?_⟩
  rcases List.mem_append.1 he with he | he
  · obtain ⟨r, hr, rfl⟩ := List.mem_map.1 he
    rw [Wal.Record.entry_seq]
    exact h.seqs.inflight_lt r (hkept.subset hr)
  · exact h.seqs.entries_lt e he

/-- **A crash in the append of a batch** keeps some of its first writes, and all of them once the
    append is through. -/
theorem crash_apply (h : db.Steady) {c : CrashAt} {coins : List (List Bool)}
    (hev : c.ev = .apply coins) (hcrash : db.crash c = some db') :
    ∃ kept, kept <+: db.inflight ∧ (c.done ≠ 0 → kept = db.inflight) ∧
      db'.Recovers (fun k => valueAfter k (db.contents k) (kept.map Wal.Record.entry))
        (kept.map Wal.Record.entry ++ db.entries) := by
  obtain ⟨-, hopen⟩ := DB.crash_inv hcrash
  obtain ⟨kept, hkept, hdone, hk⟩ := h.durable.crashIn_apply_keeps c.done c.cut
  obtain ⟨hready, hshown, hlt⟩ := h.kept hkept
  rw [DB.crashDir, hev] at hopen
  refine ⟨kept, hkept, hdone, (of_open (hk.crashOpens c.opens) hready (fun e => ?_) hlt
    hopen).of_same (funext hshown) fun e he => he⟩
  rw [List.append_assoc]
  rfl

end DB.Steady

/-! ## The abstract store -/

/-- A batch of writes, on the map. -/
def Contents.writeAll (s : Contents) (ops : List Op) : Contents := ops.foldl Contents.write s

/-- A map that survives crashes, and the writes of the batch in flight. -/
structure Ledger where
  durable : Contents
  pending : List Op

namespace Ledger

/-- What a step of the engine does to it. -/
def step (l : Ledger) : Event → Ledger
  | .assign ops => ⟨l.durable, ops⟩
  | .apply _ => ⟨l.durable.writeAll l.pending, []⟩
  | _ => l

/-- What a crash does to it. -/
def Crashes (l : Ledger) (c : CrashAt) (l' : Ledger) : Prop :=
  match c.ev with
  | .apply _ => ∃ kept, kept <+: l.pending ∧ (c.done ≠ 0 → kept = l.pending) ∧
      l' = ⟨l.durable.writeAll kept, []⟩
  | _ => l' = ⟨l.durable, []⟩

/-- What can happen to it. -/
def Next (l : Ledger) : LifeEvent → Ledger → Prop
  | .run ev, l' => l' = l.step ev
  | .crash c, l' => l.Crashes c l'

end Ledger

/-- The write a record stands for. -/
def Wal.Record.op (r : Wal.Record) : Op :=
  if r.type = .put then .put r.key r.value else .del r.key

theorem Op.record_op (op : Op) (seq : UInt64) : (op.record seq).op = op := by
  cases op <;> rfl

theorem map_op_batchRecords (seq : UInt64) (ops : List Op) :
    (batchRecords seq ops).map Wal.Record.op = ops := by
  induction ops generalizing seq with
  | nil => rfl
  | cons op ops ih => rw [batchRecords, List.map_cons, ih, Op.record_op]

/-- The entry of a record is that of its write. -/
theorem Contents.write_record (s : Contents) (r : Wal.Record) (k : Bytes) :
    s.write r.op k = if r.entry.key = k then r.entry.shown else s k := by
  unfold Contents.write Wal.Record.op Wal.Record.entry
  split <;> rfl

theorem Contents.writeAll_records (s : Contents) (rs : List Wal.Record) (k : Bytes) :
    valueAfter k (s k) (rs.map Wal.Record.entry) = s.writeAll (rs.map Wal.Record.op) k := by
  induction rs generalizing s with
  | nil => rfl
  | cons r rs ih =>
    have h := ih (s.write r.op)
    rw [s.write_record] at h
    exact h

/-! ## Refinement -/

/-- The engine follows the abstract store. -/
structure DB.Refines (db : DB) (l : Ledger) : Prop where
  steady : db.Steady
  durable : db.contents = l.durable
  pending : db.inflight.map Wal.Record.op = l.pending

/-- What a step needs so that reads stay right; a step that is interrupted needs the same. -/
def StaysExact (db : DB) (ev : LifeEvent) : Prop := ExactOk db ev.event

instance (db : DB) (ev : LifeEvent) : Decidable (StaysExact db ev) :=
  inferInstanceAs (Decidable (ExactOk db ev.event))

namespace DB.Refines

variable {db db' : DB} {l : Ledger}

theorem step (h : db.Refines l) {ev : Event} (hok : ExactOk db ev)
    (hread : db.Within ev) (hr : ∀ opts coins, ev ≠ .reopen opts coins)
    (hstep : db.step ev = some db') : db'.Refines (l.step ev) := by
  have hs := h.steady.step hok hread hr hstep
  have hcont := h.steady.contents_step hread.tables hr hstep
  have hsame : db.applied ev = [] → db'.contents = l.durable := by
    intro happ
    rw [← h.durable]
    exact funext fun k => by rw [hcont, happ]; rfl
  have hframe := (DB.step_frame hstep).writers
  cases ev with
  | assign ops =>
    refine ⟨hs, hsame rfl, ?_⟩
    obtain ⟨-, -, rfl⟩ := DB.assign_inv hstep
    exact map_op_batchRecords db.nextSeq ops
  | apply coins =>
    refine ⟨hs, funext fun k => ?_, ?_⟩
    · rw [hcont, Ledger.step, ← h.pending, ← h.durable]
      exact db.contents.writeAll_records db.inflight k
    · obtain ⟨-, rfl⟩ := DB.apply_inv hstep
      rfl
  | reopen opts coins => exact absurd rfl (hr opts coins)
  | _ => exact ⟨hs, hsame rfl, (congrArg _ (hframe rfl).2).trans h.pending⟩

theorem crash (h : db.Refines l) {c : CrashAt} (hok : ExactOk db c.ev)
    (hread : LimitsOk db (.crash c)) (hcrash : db.crash c = some db') :
    ∃ l', l.Crashes c l' ∧ db'.Refines l' := by
  unfold Ledger.Crashes
  split
  · rename_i coins hev
    obtain ⟨kept, hkept, hdone, hrec⟩ := h.steady.crash_apply hev hcrash
    refine ⟨_, ⟨kept.map Wal.Record.op, h.pending ▸ hkept.map _, fun hd => ?_, rfl⟩, hrec.steady,
      hrec.contents.trans (funext fun k => ?_), by rw [hrec.idle.2.1]; rfl⟩
    · rw [hdone hd, h.pending]
    · rw [← h.durable]
      exact db.contents.writeAll_records kept k
  · rename_i hev
    have hrec := h.steady.crash hok hread hev hcrash
    exact ⟨_, rfl, hrec.steady, hrec.contents.trans h.durable, by rw [hrec.idle.2.1]; rfl⟩

theorem live (h : db.Refines l) {ev : LifeEvent} (hok : LimitsOk db ev ∧ StaysExact db ev)
    (hstep : db.live ev = some db') : ∃ l', l.Next ev l' ∧ db'.Refines l' := by
  cases ev with
  | crash c => exact h.crash hok.2 hok.1 hstep
  | run ev =>
    refine ⟨_, rfl, ?_⟩
    by_cases hr : ∃ opts coins, ev = .reopen opts coins
    · obtain ⟨opts, coins, rfl⟩ := hr
      have hrec := h.steady.reopen hstep
      refine ⟨hrec.steady, hrec.contents.trans h.durable, ?_⟩
      rw [hrec.idle.2.1, ← (DB.reopen_inv hstep).1]
      exact h.pending
    · exact h.step hok.2 hok.1 (fun opts coins he => hr ⟨opts, coins, he⟩) hstep

end DB.Refines

theorem DB.Steady.create (opts : Options) : (DB.create opts).Steady := by
  have h := DB.Readable.create opts
  have hs := h.sound
  refine ⟨DB.durable_create opts, hs.seqs, ⟨?_, hs.unique, ?_, ⟨?_, ?_⟩, hs.disjoint,
    hs.l0Numbers, h.whole.live⟩, fun j hj => (hs.round j hj).toRoundRuns, by simp [DB.create],
    h.whole.outputs⟩
  · rw [show (DB.create opts).memtable.entries = [] from Memtable.entries_fresh]
    exact List.nodup_nil
  · exact fun f hf => (hs.onTop_file hf).covers
  · exact hs.layered.l0.imp NotOlder.covers
  · exact fun i j hij f hf g hg => (hs.layered.levels i j hij f hf g hg).covers

theorem DB.refines_create (opts : Options) : (DB.create opts).Refines ⟨fun _ => none, []⟩ := by
  refine ⟨.create opts, funext fun k => ?_, rfl⟩
  show visible (DB.create opts).entries k uint64Max = none
  rw [DB.entries_create]
  rfl

theorem DB.Refines.get {db : DB} {l : Ledger} (h : db.Refines l) (k : Bytes) :
    db.get k = .ok (l.durable k) := by
  rw [← h.durable]
  exact h.steady.getImpl k uint64Max

theorem DB.Refines.scan {db : DB} {l : Ledger} (h : db.Refines l) (pq : SourceQueue)
    (start last : Bytes) :
    ∃ out, db.scan pq start last = .ok out ∧ l.durable.Lists start last out := by
  obtain ⟨out, hout, hinc, hmem⟩ := h.steady.scanImpl pq start last uint64Max
  exact ⟨out, hout, hinc, h.durable ▸ hmem⟩

/-- **Reads across crashes.** Every run of calls, engine steps, reopens and crashes whose steps
    are within the limits and meet `ExactOk` follows the abstract store: what is durable changes
    only when a batch is applied, all of it, or in a crash while the batch is logged, by some of
    its first writes. In every state `get` and `scan` return what is durable. -/
theorem crash_reads {opts : Options} {evs : List LifeEvent} {db : DB}
    (hlim : Steps.Meets DB.live LimitsOk (DB.create opts) evs)
    (hok : Steps.Meets DB.live StaysExact (DB.create opts) evs)
    (hrun : Steps.run DB.live (DB.create opts) evs = some db) :
    ∃ l, Steps.Leads Ledger.Next ⟨fun _ => none, []⟩ evs l ∧
      db.inflight.map Wal.Record.op = l.pending ∧
      (∀ k, db.get k = .ok (l.durable k)) ∧
      ∀ pq start last, ∃ out, db.scan pq start last = .ok out ∧ l.durable.Lists start last out := by
  obtain ⟨l, hl, h⟩ := @Steps.run_simulates _ _ DB.live _ _ db evs _ Ledger.Next DB.Refines
    (fun _ _ _ _ h hP hs => h.live hP hs) _ (DB.refines_create opts) (hlim.and hok) hrun
  exact ⟨l, hl, h.pending, h.get, h.scan⟩

/-- Two versions of a key, the second one in the log and, as the crash comes before the log is
    truncated, in a table as well; then a round of both tables, and a crash in the append of a
    deletion. -/
def copiedRun : List LifeEvent :=
  [.run (.assign [.put [1] [1]]), .run (.apply []), .run .flush,
    .run (.assign [.put [1] [2]]), .run (.apply []), .crash ⟨.flush, 3, 0, [2], {}, []⟩,
    .run .compactCall, .run (.pick plainQueue), .run .startWriter,
    .run .finishWriter, .run .commit,
    .run (.assign [.del [1]]), .crash ⟨.apply [], 0, 10, [], {}, []⟩]

theorem crash_reads_copied : ∃ db l, Steps.run DB.live (DB.create {}) copiedRun = some db ∧
    Steps.Leads Ledger.Next ⟨fun _ => none, []⟩ copiedRun l ∧
    (∀ k, db.get k = .ok (l.durable k)) ∧ l.durable [1] = some [2] := by
  have hlim : Steps.Meets DB.live LimitsOk (DB.create {}) copiedRun := by decide +kernel
  have hok : Steps.Meets DB.live StaysExact (DB.create {}) copiedRun := by decide +kernel
  have hlast : ((Steps.run DB.live (DB.create {}) copiedRun).map fun db => (db.get [1]).toOption) =
      some (some (some [2])) := by decide +kernel
  obtain ⟨db, hrun, hget⟩ := Option.map_eq_some_iff.1 hlast
  obtain ⟨l, hl, -, hreads, -⟩ := crash_reads hlim hok hrun
  refine ⟨db, l, hrun, hl, hreads, ?_⟩
  exact Except.ok.inj ((hreads [1]).symm.trans (eq_ok_of_toOption hget))

end Keystone
