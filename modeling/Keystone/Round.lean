/-
  A compaction round from its pick to its commit.

  Between the two, writers and flushes go on. `RoundOk` is what holds in between: the outputs,
  finished or not, are the kept entries of the merged stream, and in a bottommost round
  nothing outside it is older than a merged entry of its key. The commit then changes no
  visible value (`visible_commit`).
-/
import Keystone.Layering
import Keystone.Sequence

namespace Keystone

/-- The entry lists of all its output files, finished or not. -/
def Job.parts (j : Job) : List (List Entry) :=
  j.outputs.map FileMeta.contents ++ Job.pieces (some j)

/-- The same as they are read back from the files. -/
def Job.written (j : Job) : List (List Entry) :=
  j.outputs.map FileMeta.contents ++ (Job.pieces (some j)).map contentsOf

/-- The numbers of the output files begun so far. -/
def Job.numbers (j : Job) : List Nat :=
  j.outputs.map FileMeta.number ++ Job.writerNumbers (some j)

/-- What is known of the round in progress `j`, with the oldest snapshot and the stream it
    started from. -/
structure RoundOk (db : DB) (oldestSnap : UInt64) (stream : List Entry) (j : Job) : Prop where
  stream_mem : ∀ e, e ∈ stream ↔ ∃ fm ∈ j.job.inputs, e ∈ fm.contents
  sorted : SortedLe stream
  kept : j.parts.flatten = retain oldestSnap j.job.isBottommost ⟨[], false⟩ stream
  bottom : j.job.isBottommost = true → ∀ t ∈ stream, ∀ x ∈ db.outside j.job, x.key = t.key →
    t.seq ≤ x.seq ∨ t ∈ db.outside j.job

section Step

variable {db db' : DB}

/-- Until its commit a round goes on, in any state: its files move from those to be written to
    those that are. -/
theorem job_moves {j : Job} (hj : db.job = some j) {ev : Event} (hc : ev ≠ .commit)
    (h : db.step ev = some db') :
    ∃ j', db'.job = some j' ∧ j'.job = j.job ∧
      (j'.numbers = j.numbers ∨ j'.numbers = j.numbers ++ [db.nextSst]) ∧
      (j'.outputs = j.outputs ∧ Job.pieces (some j') = Job.pieces (some j) ∨
        ∃ chunk fm, db.newTables ev = [chunk] ∧ fm.contents = contentsOf chunk ∧
          Job.pieces (some j) = chunk :: Job.pieces (some j') ∧ j'.outputs = j.outputs ++ [fm]) := by
  have hsame := (DB.step_frame h).job
  cases ev with
  | pick pq =>
    obtain ⟨-, hnone, -⟩ := DB.pick_shape h
    rw [hj] at hnone
    cases hnone
  | startWriter =>
    obtain ⟨job, chunk, chunks, outputs, hj', -, rfl⟩ := DB.startWriter_inv h
    obtain rfl := Option.some.inj (hj.symm.trans hj')
    exact ⟨_, rfl, rfl, Or.inr (by simp [Job.numbers, Job.writerNumbers]), Or.inl ⟨rfl, rfl⟩⟩
  | finishWriter =>
    obtain ⟨job, chunks, number, chunk, outputs, file, fm, hj', hbuild, rfl⟩ :=
      DB.finishWriter_shape h
    obtain rfl := Option.some.inj (hj.symm.trans hj')
    obtain ⟨-, rfl, -, hcont⟩ := buildTable_contents hbuild
    refine ⟨_, rfl, rfl, Or.inl ?_, Or.inr ⟨chunk, _, ?_, hcont, rfl, rfl⟩⟩
    · simp [Job.numbers, Job.writerNumbers]
    · simp [DB.newTables, hj]
  | commit => exact absurd rfl hc
  | reopen opts coins =>
    obtain ⟨-, hnone, -⟩ := DB.reopen_inv h
    rw [hj] at hnone
    cases hnone
  | _ => exact ⟨j, (hsame rfl).trans hj, rfl, Or.inl rfl, Or.inl ⟨rfl, rfl⟩⟩

/-- What the round will have written stays the same. -/
theorem job_written {j : Job} (hj : db.job = some j) {ev : Event} (hc : ev ≠ .commit)
    (h : db.step ev = some db') : ∃ j', db'.job = some j' ∧ j'.job = j.job ∧
      j'.written = j.written ∧ (∀ es ∈ Job.pieces (some j'), es ∈ Job.pieces (some j)) ∧
      (j'.numbers = j.numbers ∨ j'.numbers = j.numbers ++ [db.nextSst]) := by
  obtain ⟨j', hj', hjob, hnum, ⟨hout, hpieces⟩ | ⟨chunk, fm, -, hcont, hpieces, hout⟩⟩ :=
    job_moves hj hc h
  · refine ⟨j', hj', hjob, ?_, fun es hes => hpieces ▸ hes, hnum⟩
    rw [Job.written, Job.written, hout, hpieces]
  · refine ⟨j', hj', hjob, ?_, fun es hes => hpieces ▸ List.mem_cons_of_mem chunk hes, hnum⟩
    simp [Job.written, hout, hpieces, hcont]

/-- In files that can be read it is what was merged. -/
theorem job_step (hw : db.Stored) {j : Job} (hj : db.job = some j) {ev : Event}
    (hfit : db.TablesFit ev) (hc : ev ≠ .commit) (h : db.step ev = some db') :
    ∃ j', db'.job = some j' ∧ j'.job = j.job ∧ j'.parts = j.parts ∧
      (j'.numbers = j.numbers ∨ j'.numbers = j.numbers ++ [db.nextSst]) := by
  obtain ⟨j', hj', hjob, hnum, ⟨hout, hpieces⟩ | ⟨chunk, fm, hnew, hcont, hpieces, hout⟩⟩ :=
    job_moves hj hc h
  · exact ⟨j', hj', hjob, by rw [Job.parts, Job.parts, hout, hpieces], hnum⟩
  · have hchunk := hw.tables.pieces chunk (by rw [hj, hpieces]; exact List.mem_cons_self)
    rw [contentsOf_eq hchunk.storable (hfit.of_new hnew)] at hcont
    exact ⟨j', hj', hjob, by simp [Job.parts, hout, hpieces, hcont], hnum⟩

/-- What is outside a round only grows, by the entries applied meanwhile. -/
theorem outside_step (hw : db.Stored) {j : Job} (hj : db.job = some j) {ev : Event}
    (hfit : db.TablesFit ev) (hc : ev ≠ .commit) (h : db.step ev = some db') :
    (db'.outside j.job).Perm (db.applied ev ++ db.outside j.job) := by
  cases DB.step_kind h with
  | assign ops hev h =>
    obtain ⟨-, -, rfl⟩ := DB.assign_inv h
    subst hev
    exact List.Perm.refl _
  | apply coins hev h =>
    subst hev
    exact outside_apply h j.job
  | flush hev hnew h =>
    have : db.applied ev = [] := by rcases hev with rfl | rfl <;> rfl
    rw [this]
    exact outside_flush hw (hfit.of_new hnew) h hj
  | commit hev h => exact absurd hev hc
  | reopen opts coins hev h =>
    obtain ⟨-, hnone, -⟩ := DB.reopen_inv h
    rw [hj] at hnone
    simp at hnone
  | quiet hev mem ver inflight seq =>
    rw [hev, DB.outside, mem, ver]
    exact List.Perm.refl _

/-- **One step of a round.** -/
theorem RoundOk.step {oldestSnap : UInt64} {stream : List Entry} {j : Job}
    (hr : RoundOk db oldestSnap stream j) (hw : db.Stored) (hs : db.SeqsOk)
    (hj : db.job = some j) {ev : Event} (hfit : db.TablesFit ev) (hc : ev ≠ .commit)
    (h : db.step ev = some db') :
    ∃ j', db'.job = some j' ∧ j'.job = j.job ∧ RoundOk db' oldestSnap stream j' := by
  obtain ⟨j', hj', hjob, hparts, -⟩ := job_step hw hj hfit hc h
  have hout := outside_step hw hj hfit hc h
  refine ⟨j', hj', hjob, ?_, hr.sorted, ?_, ?_⟩
  · rw [hjob]
    exact hr.stream_mem
  · rw [hparts, hjob]
    exact hr.kept
  · rw [hjob]
    intro hb t ht x hx hk
    rcases List.mem_append.1 (hout.mem_iff.1 hx) with hx | hx
    · obtain ⟨fm, hfm, hte⟩ := (hr.stream_mem t).1 ht
      have hmem : t ∈ db.entries :=
        DB.mem_entries.2 (Or.inr ⟨fm, hw.tables.inputs fm (by rw [hj]; exact hfm), hte⟩)
      exact Or.inl (le_of_lt (applied_newer hs hx hmem))
    · rcases hr.bottom hb t ht x hx hk with h | h
      · exact Or.inl h
      · exact Or.inr (hout.mem_iff.2 (List.mem_append_right _ h))

end Step

/-! ## The commit -/

section Commit

variable {db db' : DB}

theorem DB.Stored.number_inj (hw : db.Stored) {f g : FileMeta} (hf : f ∈ db.version.allFiles)
    (hg : g ∈ db.version.allFiles) (he : f.number = g.number) : f = g := by
  have hnd := (List.nodup_append.1 hw.tables.nodup).1
  exact List.inj_on_of_nodup_map hnd (List.mem_append_left _ hf) (List.mem_append_left _ hg) he

/-- The files that stay are those that are no inputs. -/
theorem mem_remaining_iff (hw : db.Stored) {j : Job} (hj : db.job = some j) {f : FileMeta}
    (hf : f ∈ db.version.allFiles) :
    f.number ∉ j.job.inputs.map FileMeta.number ↔ f ∉ j.job.inputs := by
  refine not_congr ⟨fun h => ?_, fun h => List.mem_map_of_mem h⟩
  obtain ⟨g, hg, he⟩ := List.mem_map.1 h
  have := hw.number_inj (hw.tables.inputs g (by rw [hj]; exact hg)) hf he
  exact this ▸ hg

/-- Every entry is outside the round or in an input. -/
theorem mem_entries_split (hw : db.Stored) {j : Job} (hj : db.job = some j) (e : Entry) :
    e ∈ db.entries ↔ e ∈ db.outside j.job ∨ ∃ fm ∈ j.job.inputs, e ∈ fm.contents := by
  have hin : ∀ fm ∈ j.job.inputs, fm ∈ db.version.allFiles :=
    fun fm hfm => hw.tables.inputs fm (by rw [hj]; exact hfm)
  rw [DB.mem_entries, DB.outside, List.mem_append, List.mem_flatMap]
  constructor
  · rintro (he | ⟨fm, hfm, he⟩)
    · exact Or.inl (Or.inl he)
    · by_cases hmem : fm ∈ j.job.inputs
      · exact Or.inr ⟨fm, hmem, he⟩
      · exact Or.inl (Or.inr ⟨fm, mem_remaining.2 ⟨hfm, (mem_remaining_iff hw hj hfm).2 hmem⟩, he⟩)
  · rintro ((he | ⟨fm, hfm, he⟩) | ⟨fm, hfm, he⟩)
    · exact Or.inl he
    · exact Or.inr ⟨fm, (mem_remaining.1 hfm).1, he⟩
    · exact Or.inr ⟨fm, hin fm hfm, he⟩

/-- After the commit the outputs stand for the inputs, or nothing has changed. -/
theorem entries_commit (h : db.commit = some db') {oldestSnap : UInt64}
    {stream : List Entry} {j : Job} (hj : db.job = some j) (hr : RoundOk db oldestSnap stream j) :
    (∀ e, e ∈ db'.entries ↔ e ∈ db.entries) ∨
    ∀ e, e ∈ db'.entries ↔ e ∈ db.outside j.job ++
      retain oldestSnap j.job.isBottommost ⟨[], false⟩ stream := by
  obtain ⟨job, outputs, hj', ⟨-, rfl⟩ | ⟨-, rfl⟩⟩ := DB.commit_inv h
  · exact Or.inl fun e => Iff.rfl
  · obtain rfl := Option.some.inj (hj.symm.trans hj')
    refine Or.inr fun e => ?_
    have hk : (outputs.map FileMeta.contents).flatten =
        retain oldestSnap job.isBottommost ⟨[], false⟩ stream := by
      rw [← hr.kept]
      simp [Job.parts, Job.pieces]
    rw [DB.mem_entries, ← hk, DB.outside, List.mem_append, List.mem_append, ← List.flatMap_def,
      List.mem_flatMap, List.mem_flatMap]
    simp only [(allFiles_commit db.version job outputs).mem_iff, List.mem_append, or_and_right,
      exists_or, or_assoc]

/-- **The commit of a round is invisible** at every snapshot the round respects. -/
theorem visible_commit (hw : db.Stored) (hu : UniqueSeqs db.entries)
    (h : db.commit = some db') {oldestSnap : UInt64} {stream : List Entry} {j : Job}
    (hj : db.job = some j) (hr : RoundOk db oldestSnap stream j) {k : Bytes} {s : UInt64}
    (hsnap : oldestSnap ≤ s ∨ ∀ e ∈ stream, e.seq ≤ s) :
    visible db'.entries k s = visible db.entries k s := by
  have hsplit : ∀ e, e ∈ db.entries ↔ e ∈ db.outside j.job ++ stream := by
    intro e
    rw [mem_entries_split hw hj, List.mem_append, hr.stream_mem]
  have hu' : UniqueSeqs (db.outside j.job ++ stream) := hu.subset fun e he => (hsplit e).2 he
  rcases entries_commit h hj hr with hsame | hnew
  · exact (visible_congr hu (fun e => (hsame e).symm) k s).symm
  · have hsub : ∀ e ∈ db'.entries, e ∈ db.outside j.job ++ stream := by
      intro e he
      rcases List.mem_append.1 ((hnew e).1 he) with he | he
      · exact List.mem_append_left _ he
      · exact List.mem_append_right _ ((retain_sublist _ _ _ _).subset he)
    rw [visible_congr (hu'.subset hsub) hnew k s, visible_congr hu hsplit k s]
    exact visible_retain hr.sorted hu' hr.bottom hsnap

end Commit

/-! ## From pick to commit -/

section FromPick

variable {db db' : DB}

/-- Before a round: no entry of the memtable hides a newer one of a table. -/
def DB.MemtableOnTop (db : DB) : Prop :=
  ∀ m ∈ db.memtable.entries, ∀ e ∈ db.tables, m.key = e.key →
    e.seq ≤ m.seq ∨ e ∈ db.memtable.entries

/-- A picked round is as `RoundOk` says, if what stays outside a bottommost one covers what it
    merges. -/
theorem roundOk_pick_of_covers {pq : SourceQueue} (hw : db.Stored) (hmem : db.MemtableOnTop)
    (hcov : (pickCompaction db.opts db.forceCompact db.version).isBottommost = true →
      ∀ f ∈ db.version.allFiles, f ∉ (pickCompaction db.opts db.forceCompact db.version).inputs →
      ∀ g ∈ (pickCompaction db.opts db.forceCompact db.version).inputs,
        Covers f.contents g.contents)
    (h : db.pick pq = some db') (hround : db'.job ≠ none) :
    ∃ j stream, db'.job = some j ∧ RoundOk db' db.oldestLiveSnapshot stream j ∧
      (∀ e ∈ stream, e ∈ db.tables) ∧ ∀ f ∈ j.job.inputs, f ∈ db.version.allFiles := by
  obtain ⟨hnone, ⟨-, rfl⟩ | ⟨-, rfl⟩⟩ := DB.pick_inv hw h
  · exact absurd hnone hround
  · set job := pickCompaction db.opts db.forceCompact db.version with hjob
    have hin : ∀ f ∈ job.inputs, f ∈ db.version.allFiles := pickCompaction_inputs _ _ _
    have hok : ∀ f ∈ job.inputs, f.Ok := fun f hf => hw.okFiles f (hin f hf)
    have htab : ∀ e ∈ roundStream pq job.inputs, e ∈ db.tables := by
      intro e he
      obtain ⟨fm, hfm, he⟩ := mem_roundStream.1 he
      exact DB.mem_tables.2 ⟨fm, hin fm hfm, he⟩
    refine ⟨_, roundStream pq job.inputs, rfl, ⟨fun e => mem_roundStream, sorted_roundStream hok,
      ?_, ?_⟩, htab, hin⟩
    · simp only [Job.parts, Job.pieces, List.map_nil, Option.bind_some, Option.map_none, Option.toList_none,
        List.nil_append, Option.map_some, Option.getD_some]
      exact flatten_mergeOutputs _ _ _ _
    · intro hb t ht x hx hk
      obtain ⟨g, hg, htg⟩ := mem_roundStream.1 ht
      rcases List.mem_append.1 hx with hx | hx
      · rcases hmem x hx t (htab t ht) hk with h | h
        · exact Or.inl h
        · exact Or.inr (List.mem_append_left _ h)
      · obtain ⟨f, hf, hxf⟩ := List.mem_flatMap.1 hx
        obtain ⟨hfall, hnot⟩ := mem_remaining.1 hf
        have hout : f ∉ job.inputs := fun hmem => hnot (List.mem_map_of_mem hmem)
        refine (hcov hb f hfall hout g hg x hxf t htg hk).imp_right fun htf => ?_
        exact List.mem_append_right _ (List.mem_flatMap.2 ⟨f, hf, htf⟩)

theorem roundOk_pick {pq : SourceQueue} (hw : db.Stored) (hmem : db.MemtableOnTop)
    (hpl : Placed db.version (pickCompaction db.opts db.forceCompact db.version))
    (hull : HullClear db.version (pickCompaction db.opts db.forceCompact db.version))
    (h : db.pick pq = some db') (hround : db'.job ≠ none) :
    ∃ j stream, db'.job = some j ∧ RoundOk db' db.oldestLiveSnapshot stream j ∧
      (∀ e ∈ stream, e ∈ db.tables) ∧ ∀ f ∈ j.job.inputs, f ∈ db.version.allFiles :=
  roundOk_pick_of_covers hw hmem (fun hb _ hf hout _ hg => (hpl.outside ageOrder_notOlder hull
    hw.okFiles (pickCompaction_inputs _ _ _) hb hf hout hg).covers) h hround

/-- What holds of the state while the round with the given inputs is in progress. -/
structure DuringRound (oldestSnap : UInt64) (stream : List Entry) (inputs : List FileMeta)
    (db : DB) : Prop where
  stored : db.Stored
  seqs : db.SeqsOk
  unique : UniqueSeqs db.entries
  round : ∃ j, db.job = some j ∧ j.job.inputs = inputs ∧ RoundOk db oldestSnap stream j

theorem DuringRound.step {oldestSnap : UInt64} {stream : List Entry} {inputs : List FileMeta}
    {ev : Event} (h : DuringRound oldestSnap stream inputs db) (hwrap : db.NoWrap ev)
    (hfit : db.TablesFit ev) (hc : ev ≠ .commit) (hstep : db.step ev = some db') :
    DuringRound oldestSnap stream inputs db' := by
  obtain ⟨j, hj, hin, hr⟩ := h.round
  have hre : ∀ opts coins, ev ≠ .reopen opts coins := by
    rintro opts coins rfl
    obtain ⟨-, hnone, -⟩ := DB.reopen_inv hstep
    rw [hj] at hnone
    simp at hnone
  obtain ⟨j', hj', hjob, hr'⟩ := hr.step h.stored h.seqs hj hfit hc hstep
  exact ⟨h.stored.step hre hfit hstep, h.seqs.step h.stored hwrap hfit hc hre hstep,
    uniqueSeqs_step h.unique h.seqs h.stored hfit hc hre hstep, j', hj', by rw [hjob, hin], hr'⟩

end FromPick

end Keystone
