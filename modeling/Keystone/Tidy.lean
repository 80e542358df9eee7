/-
  What is in the directory.

  A `.sst` file is there because the version has it, because the round in progress wrote it, or
  because it was merged and its last reader has not let go of it. A `.sst.tmp` file belongs to
  the open writer. Nothing else is left behind, whatever happens: a crash may leave any file, but
  the next `DB::open` removes what no snapshot of the MANIFEST names.

  * `DB.tidy_open`: every open, of any directory.
  * `DB.Tidy.step`, `DB.Tidy.live`: every step, and every crash.
  * `directory_exact`: between rounds, with nothing left to unlink, the files are those of the
    version.
-/
import Keystone.CrashAtomic
import Keystone.Renumber

namespace Keystone

/-- Every table file is live, an output of the round in progress, or to be unlinked; every
    temporary file is the open writer's. -/
structure DB.Tidy (db : DB) : Prop where
  sst : ∀ p ∈ db.dir.sst,
    p.1 ∈ (db.version.allFiles ++ Job.outputsOf db.job).map FileMeta.number ∨ p.1 ∈ db.doomed
  tmp : ∀ n ∈ db.dir.tmp, n ∈ Job.writerNumbers db.job

/-! ## Opening -/

section Open

variable {dir : Dir}

theorem execAll_openOps_sst (dir : Dir) : (dir.execAll (DB.openOps dir)).sst =
      dir.sst.filter (fun p => p.1 ∉ DB.orphans dir (DB.liveEntries dir)) ∧
    (dir.execAll (DB.openOps dir)).tmp = [] := by
  unfold DB.openOps
  simp only [execAll_append, execAll_removeTmp, execAll_removeSst]
  by_cases hm : dir.manifest = none ∧ DB.liveEntries dir ≠ [] <;> cases hw : dir.wal <;>
    simp [Dir.execAll, Dir.exec, hm]

/-- A live entry whose file is there is in the version. -/
theorem openFiles_mem {live : List ManifestEntry} {files : List FileMeta}
    (h : DB.openFiles dir live = .ok files) {entry : ManifestEntry} (hentry : entry ∈ live)
    {n : Nat} {file : Bytes} (hfind : dir.find entry.number = some (n, file)) :
    ∃ fm ∈ files, fm.number = n := by
  induction live generalizing files with
  | nil => simp at hentry
  | cons entry' live ih =>
    obtain ⟨fm?, hfile, h⟩ := bind_eq_ok h
    obtain ⟨rest, hrest, h⟩ := bind_eq_ok h
    obtain rfl := Except.ok.inj h
    rcases List.mem_cons.1 hentry with rfl | hentry
    · simp only [DB.openFile, hfind] at hfile
      obtain ⟨table, -, hfile⟩ := bind_eq_ok hfile
      obtain ⟨range, -, hfile⟩ := bind_eq_ok hfile
      obtain rfl := Except.ok.inj hfile
      exact ⟨_, List.mem_append_left _ (Option.mem_toList.2 rfl), rfl⟩
    · obtain ⟨fm, hfm, hn⟩ := ih hrest hentry
      exact ⟨fm, List.mem_append_right _ hfm, hn⟩

theorem openVersion_mem {files : List FileMeta} {fm : FileMeta} (h : fm ∈ files) :
    fm ∈ (DB.openVersion files).allFiles :=
  Version.mem_allFiles.2 ⟨fm.level, (files_openVersion_perm files fm.level).mem_iff.2
    (List.mem_filter.2 ⟨h, decide_eq_true rfl⟩)⟩

/-- **Every open leaves a tidy directory**, whatever it found. -/
theorem DB.tidy_open {opts : Options} {coins : List (List Bool)} {db : DB}
    (h : DB.open opts coins dir = .ok db) : db.Tidy := by
  obtain ⟨files, hfiles, rfl⟩ := DB.open_inv h
  obtain ⟨hsst, htmp⟩ := execAll_openOps_sst dir
  refine ⟨fun p hp => Or.inl ?_, fun n hn => ?_⟩
  · rw [hsst, List.mem_filter, decide_eq_true_eq, Openable.mem_orphans, not_and, not_not] at hp
    obtain ⟨entry, hentry, hnum⟩ := List.mem_map.1 (hp.2 (List.mem_map_of_mem hp.1))
    have hfind : ∃ file, dir.find entry.number = some (p.1, file) := by
      have hsome : (dir.find entry.number).isSome :=
        List.find?_isSome.2 ⟨p, hp.1, decide_eq_true hnum.symm⟩
      obtain ⟨⟨n, file⟩, hq⟩ := Option.isSome_iff_exists.1 hsome
      have hn : (n : Int) = entry.number.toInt := by
        simpa using List.find?_some (show dir.sst.find? _ = some (n, file) from hq)
      obtain rfl : n = p.1 := by exact_mod_cast hn.trans hnum
      exact ⟨file, hq⟩
    obtain ⟨file, hfind⟩ := hfind
    obtain ⟨fm, hfm, hn⟩ := openFiles_mem hfiles hentry hfind
    exact List.mem_map.2 ⟨fm, List.mem_append_left _ (openVersion_mem hfm), hn⟩
  · rw [htmp] at hn
    simp at hn

end Open

/-! ## Steps -/

namespace DB.Tidy

variable {db db' : DB}

theorem flush (h : db.Tidy) (hstep : db.flush = some db') : db'.Tidy := by
  rcases DB.flush_shape hstep with ⟨-, rfl⟩ | ⟨-, -, file, fm, hbuild, rfl⟩
  · exact h
  · have hnum := buildTable_number hbuild
    refine ⟨fun p hp => ?_, fun n hn => ?_⟩
    · simp only [DB.flushOps, Dir.execAll, List.foldl_cons, List.foldl_nil, Dir.exec,
        List.mem_cons, List.mem_filter] at hp
      simp only [List.map_append, List.mem_append, ((allFiles_pushL0 db.version fm).map _).mem_iff]
      rcases hp with rfl | ⟨hp, -⟩
      · exact Or.inl (Or.inl (Or.inr (by simp [hnum])))
      · have := h.sst p hp
        simp only [List.map_append, List.mem_append] at this
        tauto
    · simp only [DB.flushOps, Dir.execAll, List.foldl_cons, List.foldl_nil, Dir.exec,
        List.mem_cons, List.mem_filter, decide_eq_true_eq] at hn
      rcases hn with ⟨rfl | ⟨hn, -⟩, hne⟩
      · exact absurd rfl hne
      · exact h.tmp n hn

/-- **Every step keeps the directory tidy.** -/
theorem step (h : db.Tidy) {ev : Event} (hstep : db.step ev = some db') : db'.Tidy := by
  cases ev with
  | assign reqs =>
    obtain ⟨-, -, rfl⟩ := DB.assign_inv hstep
    exact ⟨h.sst, h.tmp⟩
  | apply coins =>
    obtain ⟨-, rfl⟩ := DB.apply_inv hstep
    exact ⟨h.sst, h.tmp⟩
  | flush => exact h.flush hstep
  | maybeFlush =>
    rcases DB.maybeFlush_inv hstep with ⟨-, hstep⟩ | ⟨-, rfl⟩
    · exact h.flush hstep
    · exact h
  | getSnapshot | releaseSnapshot _ | compactCall | compactWake =>
    obtain ⟨_, _, _, _, rfl⟩ := DB.calls_shape rfl hstep
    exact ⟨h.sst, h.tmp⟩
  | pick pq =>
    obtain ⟨-, hj, ⟨-, rfl⟩ | ⟨-, sources, -, rfl⟩⟩ := DB.pick_shape hstep
    · exact ⟨h.sst, h.tmp⟩
    · have hsst := h.sst
      have htmp := h.tmp
      rw [hj] at hsst htmp
      exact ⟨hsst, htmp⟩
  | startWriter =>
    obtain ⟨job, chunk, chunks, outputs, hj, -, rfl⟩ := DB.startWriter_inv hstep
    have hsst := h.sst
    rw [hj] at hsst
    refine ⟨hsst, fun n hn => ?_⟩
    rcases List.mem_cons.1 hn with rfl | hn
    · exact List.mem_singleton_self _
    · have := h.tmp n (List.mem_of_mem_filter hn)
      rw [hj] at this
      simp [Job.writerNumbers] at this
  | finishWriter =>
    obtain ⟨job, chunks, number, chunk, outputs, file, fm, hj, hbuild, rfl⟩ :=
      DB.finishWriter_shape hstep
    have hsst := h.sst
    have htmp := h.tmp
    rw [hj] at hsst htmp
    refine ⟨fun p hp => ?_, fun n hn => ?_⟩
    · rcases List.mem_cons.1 hp with rfl | hp
      · refine Or.inl (List.mem_map.2 ⟨fm, ?_, buildTable_number hbuild⟩)
        simp [Job.outputsOf]
      · refine (hsst p (List.mem_of_mem_filter hp)).imp_left fun hmem => ?_
        simp only [Job.outputsOf, Option.map_some, Option.getD_some, List.map_append,
          List.mem_append] at hmem ⊢
        tauto
    · obtain ⟨hn, hne⟩ := List.mem_filter.1 hn
      have hw := htmp n hn
      simp only [Job.writerNumbers, Option.bind_some, Option.map_some, Option.toList_some,
        List.mem_singleton] at hw
      exact absurd hw (of_decide_eq_true hne)
  | commit =>
    obtain ⟨job, outputs, hj, ⟨rfl, rfl⟩ | ⟨-, rfl⟩⟩ := DB.commit_inv hstep
    · have hsst := h.sst
      have htmp := h.tmp
      rw [hj] at hsst htmp
      exact ⟨hsst, htmp⟩
    · have hsst := h.sst
      have htmp := h.tmp
      rw [hj] at hsst htmp
      refine ⟨fun p hp => ?_, htmp⟩
      rcases hsst p hp with hmem | hd
      · obtain ⟨f, hf, hn⟩ := List.mem_map.1 hmem
        by_cases hin : f.number ∈ job.inputs.map FileMeta.number
        · exact Or.inr (List.mem_append_right _ (hn ▸ hin))
        · refine Or.inl (List.mem_map.2 ⟨f, List.mem_append_left _ ?_, hn⟩)
          rw [(allFiles_commit db.version job outputs).mem_iff, List.mem_append, mem_remaining]
          exact (List.mem_append.1 hf).imp_left fun hf => ⟨hf, hin⟩
      · exact Or.inr (List.mem_append_left _ hd)
  | unlink number =>
    obtain ⟨-, rfl⟩ := DB.unlink_inv hstep
    refine ⟨fun p hp => ?_, h.tmp⟩
    obtain ⟨hp, hne⟩ := List.mem_filter.1 hp
    exact (h.sst p hp).imp_right fun hd => List.mem_filter.2 ⟨hd, hne⟩
  | reopen opts coins => exact DB.tidy_open (DB.reopen_inv hstep).2.2.2.2

theorem live (h : db.Tidy) {ev : LifeEvent} (hstep : db.live ev = some db') : db'.Tidy := by
  cases ev with
  | crash c => exact DB.tidy_open (DB.crash_inv hstep).2
  | run ev => exact h.step hstep

end DB.Tidy

theorem DB.tidy_create (opts : Options) : (DB.create opts).Tidy :=
  ⟨by simp [DB.create], by simp [DB.create]⟩

/-- **No file is left behind.** After any run of calls, engine steps, reopens and crashes within
    the limits of the log and of the MANIFEST: when no round is in progress and nothing is left
    to unlink, the directory has the tables of the version, each with all its entries, and no
    other `.sst` or `.sst.tmp` file. -/
theorem directory_exact {opts : Options} {evs : List LifeEvent} {db : DB}
    (hlim : Steps.Meets DB.live LimitsOk (DB.create opts) evs)
    (hrun : Steps.run DB.live (DB.create opts) evs = some db)
    (hjob : db.job = none) (hdoomed : db.doomed = []) :
    db.dir.sst.Perm (db.version.allFiles.map fun fm => (fm.number, tableFile fm.contents)) ∧
      db.dir.tmp = [] := by
  have hd : db.Durable := Steps.run_invariant (fun _ _ _ hd hl hs => hd.live hl hs)
    (DB.durable_create opts) hlim hrun
  have ht : db.Tidy := Steps.run_invariant (fun _ _ _ h _ hs => h.live hs)
    (DB.tidy_create opts) hlim hrun
  have htab := hd.wellFormed.tables
  rw [hjob, hdoomed] at htab
  obtain ⟨hsst, htmp⟩ := ht
  rw [hjob, hdoomed] at hsst
  rw [hjob] at htmp
  refine ⟨?_, List.eq_nil_iff_forall_not_mem.2 fun n hn => by simpa [Job.writerNumbers] using htmp n hn⟩
  have hnum : (db.version.allFiles.map FileMeta.number).Nodup := by
    simpa [usedNumbers, Job.outputsOf, Job.writerNumbers] using htab.nodup
  have hnodup : (db.version.allFiles.map fun fm => (fm.number, tableFile fm.contents)).Nodup := by
    refine List.Nodup.of_map Prod.fst ?_
    rw [List.map_map]
    exact hnum
  refine (List.perm_ext_iff_of_nodup (List.Nodup.of_map _ htab.sst_nodup) hnodup).2 fun p => ?_
  constructor
  · intro hp
    have hlive : p.1 ∈ db.version.allFiles.map FileMeta.number := by
      simpa [Job.outputsOf] using hsst p hp
    obtain ⟨fm, hfm, hn⟩ := List.mem_map.1 hlive
    refine List.mem_map.2 ⟨fm, hfm, ?_⟩
    exact List.inj_on_of_nodup_map htab.sst_nodup
      (htab.onDisk fm (List.mem_append_left _ hfm)) hp hn
  · intro hp
    obtain ⟨fm, hfm, rfl⟩ := List.mem_map.1 hp
    exact htab.onDisk fm (List.mem_append_left _ hfm)

/-- A crash in the middle of a flush leaves a table behind; the open removes it. -/
theorem directory_exact_orphan : ∃ db : DB, Steps.run DB.live (DB.create {})
    [.run (.assign [.put [1] [1]]), .run (.apply []), .crash ⟨.flush, 2, 0, [], {}, []⟩] =
      some db ∧ db.dir.sst = [] ∧ db.dir.tmp = [] := by
  have hlim : Steps.Meets DB.live LimitsOk (DB.create {})
      [.run (.assign [.put [1] [1]]), .run (.apply []),
        .crash ⟨.flush, 2, 0, [], {}, []⟩] := by decide +kernel
  have hrun : ((Steps.run DB.live (DB.create {}) [.run (.assign [.put [1] [1]]),
      .run (.apply []), .crash ⟨.flush, 2, 0, [], {}, []⟩]).map fun db =>
        (db.job.isNone, db.doomed, db.version.allFiles.length)) = some (true, [], 0) := by
    decide +kernel
  obtain ⟨db, hdb, hres⟩ := Option.map_eq_some_iff.1 hrun
  simp only [Prod.mk.injEq, Option.isNone_iff_eq_none, List.length_eq_zero_iff] at hres
  obtain ⟨hperm, htmp⟩ := directory_exact hlim hdb hres.1 hres.2.1
  rw [hres.2.2] at hperm
  exact ⟨db, hdb, List.Perm.eq_nil hperm, htmp⟩

end Keystone
