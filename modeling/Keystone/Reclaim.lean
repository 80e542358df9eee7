/-
  What a call of `DB::compact` leaves behind.

  `compact` decides from the number of files and levels whether there is anything to do; what
  there is to reclaim is in the files. A forced round without snapshots keeps at most one version
  of a key and no tombstone, and what it leaves every further round keeps (`Version.Reclaimed.round`).
  So the call reclaims everything if it comes to a forced round at all.

  * `DB.live_sorted`: in every run the tables are sorted, whatever the lengths, the MANIFEST and
    the numbers of the files.
  * `compact_reclaims_iff`: at a turn of the loop of `compact` with no round in progress, whether
    everything will be reclaimed when the call returns.
  * `compact_leaves_versions`: a call that finds one file.
-/
import Keystone.CompactCall
import Keystone.Provenance

namespace Keystone

/-! ## The tables of a run are sorted -/

theorem SortedLe.contentsOf {es : List Entry} (h : SortedLe es) : SortedLe (contentsOf es) :=
  List.Pairwise.sublist (contentsOf_isPrefix es).sublist (List.pairwise_map.2 (h.imp fun hab => hab))

theorem SSTable.Of.contents {fm : FileMeta} (h : fm.table.Of SortedLe) : SortedLe fm.contents := by
  obtain ⟨es, hes, -, hread⟩ := h.entries
  have hcont : fm.contents = contentsOf es := by simp only [FileMeta.contents, hread]
  rw [hcont]
  exact hes.contentsOf

theorem sorted_mergeVersions {inputs : List FileMeta} {sources : List (List Entry)}
    (hin : ∀ fm ∈ inputs, fm.table.Of SortedLe) (hread : DB.readInputs inputs = .ok sources)
    (pq : SourceQueue) : SortedLe (mergeVersions pq sources) := by
  obtain ⟨rfl, -⟩ := readInputs_inv hread
  refine mergeVersions_sorted pq fun l hl => ?_
  obtain ⟨fm, hfm, rfl⟩ := List.mem_map.1 hl
  exact (hin fm hfm).contents

theorem mergeClosed_sortedLe : MergeClosed SortedLe := by
  intro inputs sources oldestSnap isBottommost target pq hin hread es hes
  refine List.Pairwise.sublist (List.sublist_flatten_of_mem hes) ?_
  rw [flatten_mergeOutputs]
  exact List.Pairwise.sublist (retain_sublist _ _ _ _) (sorted_mergeVersions hin hread pq)

theorem DB.live_sorted {db db' : DB} (h : db.TablesOf SortedLe SortedLe) {ev : LifeEvent}
    (hstep : db.live ev = some db') : db'.TablesOf SortedLe SortedLe := by
  have hmem : SortedLe db.memtable.entries := db.memtable.sortedLe_entries
  cases ev with
  | crash c => exact .of_open (h.crashDir (fun _ => id) hmem c) (DB.crash_inv hstep).2
  | run ev =>
    by_cases hopen : ∃ opts coins, ev = .reopen opts coins
    · obtain ⟨opts, coins, rfl⟩ := hopen
      obtain ⟨-, -, -, -, hopen⟩ := DB.reopen_inv hstep
      exact .of_open h.disk hopen
    · exact h.step mergeClosed_sortedLe (fun _ => id) hmem
        (fun opts coins he => hopen ⟨opts, coins, he⟩) hstep

/-! ## One entry for each key -/

/-- No key has two entries, and none is a tombstone. -/
def OnePerKey (es : List Entry) : Prop :=
  (es.map Entry.key).Nodup ∧ ∀ e ∈ es, e.tombstone = false

/-- The live tables hold one entry for each key, and no tombstone. -/
def Version.Reclaimed (ver : Version) : Prop :=
  OnePerKey (ver.allFiles.flatMap FileMeta.contents)

instance (ver : Version) : Decidable ver.Reclaimed := by
  unfold Version.Reclaimed OnePerKey
  infer_instance

theorem OnePerKey.subperm {es es' : List Entry} (h : OnePerKey es') (hsub : es.Subperm es') :
    OnePerKey es := by
  obtain ⟨l, hperm, hl⟩ := hsub
  have hkeys : (l.map Entry.key).Nodup := h.1.sublist (hl.map _)
  exact ⟨(hperm.map Entry.key).nodup_iff.1 hkeys, fun e he => h.2 e (hl.subset (hperm.mem_iff.2 he))⟩

theorem sublist_flatMap_contentsOf (parts : List (List Entry)) :
    (parts.map contentsOf).flatten.Sublist (parts.flatten.map Entry.stored) := by
  induction parts with
  | nil => exact List.Sublist.refl _
  | cons es parts ih =>
    rw [List.map_cons, List.flatten_cons, List.flatten_cons, List.map_append]
    exact (contentsOf_isPrefix es).sublist.append ih

/-- What is read back of files with such entries. -/
theorem OnePerKey.append_written {es : List Entry} {parts : List (List Entry)}
    (h : OnePerKey (es ++ parts.flatten)) :
    OnePerKey (es ++ (parts.map contentsOf).flatten) := by
  refine OnePerKey.subperm ?_ ((sublist_flatMap_contentsOf parts).append_left es).subperm
  generalize parts.flatten = es' at h
  have hkeys : (es ++ es'.map Entry.stored).map Entry.key = (es ++ es').map Entry.key := by
    rw [List.map_append, List.map_append, List.map_map]
    rfl
  refine ⟨hkeys ▸ h.1, fun e he => ?_⟩
  rcases List.mem_append.1 he with he | he
  · exact h.2 e (List.mem_append_left _ he)
  · obtain ⟨e', he', rfl⟩ := List.mem_map.1 he
    exact h.2 e' (List.mem_append_right _ he')

/-- A bottommost merge without snapshots keeps one entry of a key, or none. -/
theorem onePerKey_retain {stream : List Entry} (hs : SortedLe stream) :
    OnePerKey (retain uint64Max true ⟨[], false⟩ stream) := by
  rw [retain_start_eq_keptFrom hs]
  refine ⟨List.pairwise_map.2 ((keptFrom_pairwise [] stream).imp fun hab hk => ?_), fun e he => ?_⟩
  · exact absurd (hab hk (le_uint64Max _)) (not_lt.2 (le_uint64Max _))
  · obtain ⟨pre, post, -, hkeep⟩ := mem_keptFrom.1 he
    have hdrop := (hkeep.resolve_left (not_lt.2 (le_uint64Max _))).2
    exact Bool.eq_false_iff.2 fun ht => hdrop ⟨ht, rfl⟩

/-! ## Rounds -/

theorem levels_sublist {l l' : Level} (h : [l, l'].Sublist (List.finRange kMaxLevels))
    (ver : Version) : (ver.files l ++ ver.files l').Sublist ver.allFiles := by
  have := h.flatMap ver.files
  simpa [Version.allFiles] using this

theorem pickCompaction_sublist (opts : Options) (forceCompact : Bool) (ver : Version) :
    (pickCompaction opts forceCompact ver).inputs.Sublist ver.allFiles := by
  rcases pickCompaction_cases opts forceCompact ver with
    ⟨-, h⟩ | ⟨-, h⟩ | ⟨level, next, pick, hlevels, hpick, h⟩ | h <;> rw [h]
  · rw [forcedJob_inputs]
  · exact (List.filter_sublist.append_left _).trans (levels_sublist (by decide) ver)
  · have hl : ∀ p ∈ overflowLevels, [p.1, p.2].Sublist (List.finRange kMaxLevels) := by decide
    exact ((List.singleton_sublist.2 hpick).append List.filter_sublist).trans
      (levels_sublist (hl _ hlevels) ver)
  · exact List.nil_sublist _

/-- The files a round leaves and those it merges are files of the version. -/
theorem remaining_inputs_subperm {job : CompactionJob} {files : List FileMeta}
    (h : job.inputs.Sublist files) : (job.remaining files ++ job.inputs).Subperm files := by
  rw [List.subperm_ext_iff]
  intro fm _
  rw [List.count_append]
  by_cases hmem : fm ∈ job.inputs
  · have hnot : fm ∉ job.remaining files := fun hr =>
      (mem_remaining.1 hr).2 (List.mem_map_of_mem hmem)
    rw [List.count_eq_zero_of_not_mem hnot, Nat.zero_add]
    exact h.count_le _
  · rw [List.count_eq_zero_of_not_mem hmem, Nat.add_zero]
    exact (remaining_sublist job files).count_le _

/-- What a round over a reclaimed version leaves. -/
theorem Version.Reclaimed.round {ver : Version} (h : ver.Reclaimed) {job : CompactionJob}
    (hsub : job.inputs.Sublist ver.allFiles) (oldestSnap : UInt64) (target : Nat)
    (pq : SourceQueue) :
    OnePerKey ((job.remaining ver.allFiles).flatMap FileMeta.contents ++
      ((mergeOutputs oldestSnap job.isBottommost target
        (mergeVersions pq (job.inputs.map FileMeta.contents))).map contentsOf).flatten) := by
  refine OnePerKey.append_written (h.subperm ?_)
  obtain ⟨l, hperm, hl⟩ := remaining_inputs_subperm hsub
  have hall : ((job.remaining ver.allFiles ++ job.inputs).flatMap FileMeta.contents).Subperm
      (ver.allFiles.flatMap FileMeta.contents) :=
    ⟨l.flatMap FileMeta.contents, hperm.flatMap_right _, hl.flatMap _⟩
  refine List.Subperm.trans ?_ hall
  rw [List.flatMap_append, List.subperm_append_left, flatten_mergeOutputs]
  refine (retain_sublist _ _ _ _).subperm.trans (List.Perm.subperm ?_)
  rw [List.flatMap_def]
  exact mergeVersions_perm pq _

/-! ## The call -/

/-- A step of compaction, or another call of `compact`: no write, no flush and no snapshot. -/
def Event.Undisturbed : Event → Prop
  | .compactCall => True
  | ev => ev.OfCompaction

/-- From a state on that has something to do, with the version `ver`: it is still to be done, or
    it is done. A round in progress leaves one entry of each key. -/
structure DB.Reclaiming (ver : Version) (db : DB) : Prop where
  snaps : db.liveSnapshots = []
  state : db.version = ver ∧ db.forceCompact = true ∨ db.version.Reclaimed
  round : ∀ j, db.job = some j → OnePerKey
    ((j.job.remaining db.version.allFiles).flatMap FileMeta.contents ++
      j.written.flatten)

namespace DB.Reclaiming

variable {ver : Version} {db db' : DB}

/-- Only the flags of `compact` change. -/
theorem flags (h : db.Reclaiming ver) {waiting : Nat} {force pending : Bool}
    (hforce : db.version = ver → db.forceCompact = true → force = true) :
    ({ db with waiting := waiting, forceCompact := force, compactionPending := pending } : DB).Reclaiming
      ver where
  snaps := h.snaps
  state := h.state.imp_left fun hver => ⟨hver.1, hforce hver.1 hver.2⟩
  round := h.round

theorem compactTurn (h : db.Reclaiming ver) (hd : DB.compactDone ver = false) :
    db.compactTurn.Reclaiming ver := by
  rcases DB.compactTurn_inv db with ⟨hdone, he⟩ | ⟨-, he⟩ <;> rw [he]
  · refine h.flags fun hver _ => ?_
    rw [hver, hd] at hdone
    cases hdone
  · exact h.flags fun _ hforce => hforce

theorem pick (h : db.Reclaiming ver) (hd : DB.compactDone ver = false)
    (hver : ∀ fm ∈ ver.allFiles, fm.table.Of SortedLe) {pq : SourceQueue}
    (hstep : db.pick pq = some db') : db'.Reclaiming ver := by
  obtain ⟨-, hj, ⟨-, rfl⟩ | ⟨-, sources, hread, rfl⟩⟩ := DB.pick_shape hstep
  · exact ⟨h.snaps, h.state, by simp [hj]⟩
  · refine ⟨h.snaps, h.state, ?_⟩
    rintro j hj'
    obtain rfl := Option.some.inj hj'
    rw [written_fresh]
    rcases h.state with ⟨rfl, hforce⟩ | hclean
    · -- the forced round: nothing remains beside what it writes
      have htwo : 2 ≤ db.version.allFiles.length := by
        by_contra hlt
        have hone : db.version.totalFileCount ≤ 1 := Nat.lt_succ_iff.1 (not_le.1 hlt)
        simp [DB.compactDone, hone] at hd
      have hjob : pickCompaction db.opts db.forceCompact db.version = forcedJob db.version := by
        rw [hforce]
        rfl
      have hnone : (forcedJob db.version).remaining db.version.allFiles = [] := by
        refine List.filter_eq_nil_iff.2 fun fm hfm => ?_
        rw [forcedJob_inputs]
        simpa using ⟨fm, hfm, rfl⟩
      have hold : db.oldestLiveSnapshot = uint64Max := by
        rw [DB.oldestLiveSnapshot, h.snaps]
        rfl
      have hsorted := sorted_mergeVersions (fun fm hfm => hver fm
        (pickCompaction_inputs _ _ _ fm hfm)) hread pq
      rw [hjob, hnone, (forcedJob_of_two htwo).2, hold]
      refine OnePerKey.append_written ?_
      rw [flatten_mergeOutputs]
      exact onePerKey_retain hsorted
    · obtain ⟨rfl, -⟩ := readInputs_inv hread
      exact hclean.round (pickCompaction_sublist _ _ _) _ _ pq

theorem commit (h : db.Reclaiming ver) (hstep : db.commit = some db') : db'.Reclaiming ver := by
  obtain ⟨job, outputs, hj, ⟨-, rfl⟩ | ⟨-, rfl⟩⟩ := DB.commit_inv hstep
  · exact ⟨h.snaps, h.state, by simp⟩
  · refine ⟨h.snaps, Or.inr ?_, by simp⟩
    have hone := h.round _ hj
    have hwritten : Job.written ⟨job, [], none, outputs⟩ = outputs.map FileMeta.contents := by
      simp [Job.written, Job.pieces]
    rw [hwritten, ← List.flatMap_def, ← List.flatMap_append] at hone
    exact hone.subperm ((allFiles_commit _ job outputs).flatMap_right _).subperm

/-- **One step of compaction.** -/
theorem step (h : db.Reclaiming ver) (hd : DB.compactDone ver = false)
    (hver : ∀ fm ∈ ver.allFiles, fm.table.Of SortedLe) {ev : Event} (hev : ev.Undisturbed)
    (hstep : db.step ev = some db') : db'.Reclaiming ver := by
  have hwriter : ev ≠ .commit → db'.liveSnapshots = db.liveSnapshots → db'.version = db.version →
      db'.forceCompact = db.forceCompact → (∀ j', db'.job = some j' → ∃ j, db.job = some j) →
      db'.Reclaiming ver := by
    intro hc hsnaps hversion hforce hjob
    refine ⟨hsnaps.trans h.snaps, by rw [hversion, hforce]; exact h.state, fun j' hj' => ?_⟩
    obtain ⟨j, hj⟩ := hjob j' hj'
    obtain ⟨j'', hj'', hjob'', hwritten, -⟩ := job_written hj hc hstep
    obtain rfl := Option.some.inj (hj'.symm.trans hj'')
    rw [hjob'', hwritten, hversion]
    exact h.round j hj
  cases ev with
  | compactCall =>
    obtain rfl := Option.some.inj hstep
    exact (h.flags fun _ _ => rfl).compactTurn hd
  | compactWake =>
    obtain ⟨-, -, -, rfl⟩ := DB.compactWake_inv hstep
    exact h.compactTurn hd
  | pick pq => exact h.pick hd hver hstep
  | startWriter =>
    obtain ⟨job, chunk, chunks, outputs, hj, -, rfl⟩ := DB.startWriter_inv hstep
    exact hwriter (by nofun) rfl rfl rfl fun _ _ => ⟨_, hj⟩
  | finishWriter =>
    obtain ⟨job, chunks, number, chunk, outputs, file, fm, hj, hbuild, rfl⟩ :=
      DB.finishWriter_shape hstep
    exact hwriter (by nofun) rfl rfl rfl fun _ _ => ⟨_, hj⟩
  | commit => exact h.commit hstep
  | unlink number =>
    obtain ⟨-, rfl⟩ := DB.unlink_inv hstep
    exact ⟨h.snaps, h.state, h.round⟩
  | _ => exact hev.elim

end DB.Reclaiming

/-- A turn of the loop of `compact`: at the call, or when a call that waits wakes up. No other
    call has taken back its `force_compact_`. -/
inductive DB.CompactTurn (db turn : DB) : Prop
  | call : turn = db.compactCall → DB.CompactTurn db turn
  | wake : db.forceCompact = true → db.compactWake = some turn → DB.CompactTurn db turn

/-- From this turn a call comes to its return in `db'`: it leaves the loop here, or it waits and
    leaves it when it wakes up, with nothing but compaction in between. -/
def DB.CompactReturns (db turn db' : DB) : Prop :=
  if DB.compactDone db.version then db' = turn
  else ∃ evs last, (∀ ev ∈ evs, ev.Undisturbed) ∧ turn.run evs = some last ∧
    last.compactWake = some db' ∧ db'.waiting < last.waiting

theorem DB.CompactTurn.version {db turn : DB} (h : db.CompactTurn turn) :
    turn.version = db.version := by
  have hturn : ∀ s : DB, s.compactTurn.version = s.version := by
    intro s
    rcases DB.compactTurn_inv s with ⟨-, he⟩ | ⟨-, he⟩ <;> rw [he]
  cases h with
  | call h => exact h ▸ hturn _
  | wake _ h =>
    obtain ⟨-, -, -, rfl⟩ := DB.compactWake_inv h
    exact hturn db

/-- A turn that does not leave the loop. -/
theorem DB.CompactTurn.reclaiming {db turn : DB} (h : db.CompactTurn turn)
    (hsnap : db.liveSnapshots = []) (hjob : db.job = none)
    (hwork : DB.compactDone db.version = false) : turn.Reclaiming db.version := by
  have hstart : ∀ waiting, ({ db with forceCompact := true, waiting := waiting } : DB).Reclaiming
      db.version := fun _ => ⟨hsnap, Or.inl ⟨rfl, rfl⟩, by simp [hjob]⟩
  cases h with
  | call h => exact h ▸ (hstart _).compactTurn hwork
  | wake hforce h =>
    obtain ⟨-, -, -, rfl⟩ := DB.compactWake_inv h
    have hdb : db = { db with forceCompact := true, waiting := db.waiting } := by rw [← hforce]
    exact DB.Reclaiming.compactTurn (hdb ▸ hstart db.waiting) hwork

/-- **When `compact` reclaims everything.** At a turn of its loop, in any state of a life, with no
    snapshot and either no round in progress or nothing to do: when the call returns, the live
    tables have one entry for each key and no tombstone just when there was something to do at
    this turn, or this was so already. -/
theorem compact_reclaims_iff {opts : Options} {life : List LifeEvent} {db turn db' : DB}
    (hlife : Steps.run DB.live (DB.create opts) life = some db) (hsnap : db.liveSnapshots = [])
    (hidle : db.job = none ∨ DB.compactDone db.version = true) (hturn : db.CompactTurn turn)
    (hreturns : db.CompactReturns turn db') :
    db'.version.Reclaimed ↔ DB.compactDone db.version = false ∨ db.version.Reclaimed := by
  have hsorted : db.TablesOf SortedLe SortedLe :=
    Steps.run_invariant (P := fun _ _ => True) (fun _ _ _ h _ hs => DB.live_sorted h hs)
      (.create opts) (Steps.Meets.of_forall fun _ _ => trivial) hlife
  unfold DB.CompactReturns at hreturns
  by_cases hdone : DB.compactDone db.version = true
  · rw [if_pos hdone] at hreturns
    rw [hreturns, hturn.version, hdone]
    simp
  · have hwork : DB.compactDone db.version = false := by simpa using hdone
    rw [if_neg hdone] at hreturns
    refine iff_of_true ?_ (Or.inl hwork)
    obtain ⟨evs, last, hevs, hrun, hwake, hlt⟩ := hreturns
    have hlast : last.Reclaiming db.version := by
      refine @Steps.run_invariant DB Event DB.step (fun _ ev => ev.Undisturbed) turn last evs
        (DB.Reclaiming db.version) (fun _ _ _ h hev hs => h.step hwork (fun fm hfm =>
          hsorted.tables fm (List.mem_append_left _ hfm)) hev hs)
        (hturn.reclaiming hsnap (hidle.resolve_right hdone) hwork) (Steps.Meets.of_mem hevs) hrun
    obtain ⟨-, -, -, rfl⟩ := DB.compactWake_inv hwake
    rcases DB.compactTurn_inv last with ⟨hd, he⟩ | ⟨-, he⟩ <;> rw [he] at hlt ⊢
    · refine hlast.state.resolve_left fun hver => ?_
      rw [hver.1, hwork] at hd
      cases hd
    · exact absurd hlt (lt_irrefl _)

/-- Two versions of one key in a table, and a second table with its deletion and another key. -/
def twoVersions : List LifeEvent :=
  (callPut 1 1 ++ callPut 1 2 ++ [Event.flush, Event.assign [.del [1]], Event.apply []] ++
    callPut 2 1 ++ [Event.flush]).map .run

theorem compact_reclaims_twoVersions : ∃ db db' db'',
    Steps.run DB.live (DB.create {}) twoVersions = some db ∧ ¬ db.version.Reclaimed ∧
    db.compactCall.run [.pick plainQueue, .startWriter, .finishWriter, .commit] = some db' ∧
    db'.compactWake = some db'' ∧ db''.waiting = 0 ∧ db''.version.Reclaimed := by
  have h : ((Steps.run DB.live (DB.create {}) twoVersions).bind fun db =>
      (db.compactCall.run [.pick plainQueue, .startWriter, .finishWriter, .commit]).bind fun db' =>
      db'.compactWake.map fun db'' => decide (db.liveSnapshots = [] ∧ ¬ db.version.Reclaimed ∧
        db.job.isNone ∧ DB.compactDone db.version = false ∧ db''.waiting < db'.waiting ∧
        db''.waiting = 0)) = some true := by
    decide +kernel
  obtain ⟨db, hdb, h⟩ := Option.bind_eq_some_iff.1 h
  obtain ⟨db', hdb', h⟩ := Option.bind_eq_some_iff.1 h
  obtain ⟨db'', hdb'', h⟩ := Option.map_eq_some_iff.1 h
  obtain ⟨hsnap, hnot, hjob, hwork, hlt, hzero⟩ := of_decide_eq_true h
  refine ⟨db, db', db'', hdb, hnot, hdb', hdb'', hzero, ?_⟩
  refine (compact_reclaims_iff hdb hsnap (Or.inl (by simpa using hjob)) (.call rfl) ?_).2
    (Or.inl hwork)
  rw [DB.CompactReturns, if_neg (by simp [hwork])]
  refine ⟨_, db', fun ev hev => ?_, hdb', hdb'', hlt⟩
  simp only [List.mem_cons, List.not_mem_nil, or_false] at hev
  rcases hev with rfl | rfl | rfl | rfl <;> trivial

/-- A key and its deletion, flushed into one table. -/
def oneTable : List Event := callPut 97 1 ++ [.assign [.del [97]], .apply [], .flush]

/-- **`compact` does nothing about a single file**, whatever versions and tombstones are in it. -/
theorem compact_leaves_versions : ∃ db, (DB.create {}).run oneTable = some db ∧
    db.liveSnapshots = [] ∧ db.job.isNone ∧ db.compactCall.waiting = 0 ∧
    ¬ db.compactCall.version.Reclaimed ∧
    (db.compactCall.version.allFiles.flatMap FileMeta.contents).map
      (fun e => (e.key, e.tombstone)) = [([97], true), ([97], false)] := by
  have h : (((DB.create {}).run oneTable).map fun db => decide (db.liveSnapshots = [] ∧
      db.job.isNone ∧ db.compactCall.waiting = 0 ∧ ¬ db.compactCall.version.Reclaimed ∧
      (db.compactCall.version.allFiles.flatMap FileMeta.contents).map
        (fun e => (e.key, e.tombstone)) = [([97], true), ([97], false)])) = some true := by
    decide +kernel
  obtain ⟨db, hdb, h⟩ := Option.map_eq_some_iff.1 h
  exact ⟨db, hdb, of_decide_eq_true h⟩

end Keystone
