/-
  Background rounds come to an end.

  A round takes files of one level, with files of the next, and writes what it keeps to the
  next. If every entry weighs six less its level, each round that commits outputs makes the
  version lighter, whatever the limits of the levels are and whatever is flushed meanwhile.

  * `needs_iff_pick`: a round is asked for exactly if one would be picked.
  * `weight_commit_lt`: the commit of a picked round lowers the weight.
  * `background_progress`: so a run without flushes has no more committing rounds than the
    weight it starts from.
-/
import Keystone.Replacement

namespace Keystone

/-! ## The trigger and the picker -/

theorem foldl_oldest_isSome (files : List FileMeta) (p : FileMeta) :
    (files.foldl (fun pick fm =>
      match pick with
      | none => some fm
      | some p => if fm.number < p.number then some fm else some p) (some p)).isSome := by
  induction files generalizing p with
  | nil => rfl
  | cons fm files ih =>
    simp only [List.foldl_cons]
    split <;> exact ih _

theorem oldestFile_eq_none {files : List FileMeta} : oldestFile files = none ↔ files = [] := by
  cases files with
  | nil => simp [oldestFile]
  | cons fm files =>
    have hsome : (oldestFile (fm :: files)).isSome := foldl_oldest_isSome files fm
    refine iff_of_false (fun hnone => ?_) (List.cons_ne_nil _ _)
    rw [hnone] at hsome
    cases hsome

/-- A level is passed over exactly if it is within its limit: an empty level is. -/
theorem overflowJob_eq_none {opts : Options} {ver : Version} {level next : Level} :
    overflowJob opts ver level next = none ↔
      ver.levelBytes level ≤ maxLevelBytes opts level := by
  unfold overflowJob
  split
  · simp [*]
  · rename_i hover
    rw [Option.map_eq_none_iff, oldestFile_eq_none]
    refine ⟨fun hnil => ?_, fun h => absurd h hover⟩
    rw [Version.levelBytes, hnil]
    exact Nat.zero_le _

/-- **The trigger and the picker agree.** -/
theorem needs_iff_pick {opts : Options} (htrig : 1 ≤ opts.compactionTrigger) (ver : Version) :
    needsCompaction opts ver = true ↔ (pickCompaction opts false ver).inputs ≠ [] := by
  have htrig' : 1 ≤ opts.compactionTrigger.toNat := UInt64.le_iff_toNat_le.1 htrig
  unfold needsCompaction pickCompaction
  rw [if_neg (by decide), decide_eq_true_iff]
  split
  · rename_i hl0
    refine iff_of_true (Or.inl hl0) fun hnil => ?_
    rw [l0Job, List.append_eq_nil_iff] at hnil
    rw [hnil.1] at hl0
    exact absurd (le_trans htrig' hl0) (by decide)
  · rename_i hl0
    rw [or_iff_right hl0, List.any_eq_true]
    cases hj : overflowLevels.findSome? fun l => overflowJob opts ver l.1 l.2 with
    | none =>
      refine iff_of_false ?_ (by simp)
      rintro ⟨l, hl, hover⟩
      have hle := overflowJob_eq_none.1 (List.findSome?_eq_none_iff.1 hj l hl)
      exact absurd (of_decide_eq_true hover) (not_lt.2 hle)
    | some job =>
      obtain ⟨⟨level, next⟩, hl, hjob⟩ := List.exists_of_findSome?_eq_some hj
      have hover : ¬ ver.levelBytes level ≤ maxLevelBytes opts level := fun hle => by
        rw [overflowJob_eq_none.2 hle] at hjob
        cases hjob
      refine iff_of_true ⟨(level, next), hl, decide_eq_true (not_le.1 hover)⟩ ?_
      rw [overflowJob, if_neg hover] at hjob
      obtain ⟨pick, -, rfl⟩ := Option.map_eq_some_iff.1 hjob
      exact List.cons_ne_nil _ _

/-! ## The weight of a version -/

/-- The size of the files, in terms of what is read of each. -/
def countBy (m : List Entry → Nat) (files : List FileMeta) : Nat :=
  (files.map fun fm => m fm.contents).sum

/-- The number of entries of the files. -/
def entryCountOf (files : List FileMeta) : Nat := countBy List.length files

/-- What is at level `l` weighs `6 - l` times its size. -/
def Version.weightBy (m : List Entry → Nat) (ver : Version) : Nat :=
  ∑ l : Level, (6 - l.val) * countBy m (ver.files l)

/-- Every entry weighs `6 - l` at level `l`. -/
def Version.weight (ver : Version) : Nat := ver.weightBy List.length

theorem entryCountOf_eq_flatten (files : List FileMeta) :
    entryCountOf files = (files.map FileMeta.contents).flatten.length := by
  rw [List.length_flatten, List.map_map]
  rfl

section Weight

variable {m : List Entry → Nat}

theorem countBy_append (files files' : List FileMeta) :
    countBy m (files ++ files') = countBy m files + countBy m files' := by
  simp [countBy]

theorem countBy_perm {files files' : List FileMeta} (h : files.Perm files') :
    countBy m files = countBy m files' := (h.map _).sum_eq

theorem countBy_sublist {files files' : List FileMeta} (h : files.Sublist files') :
    countBy m files ≤ countBy m files' :=
  (h.map _).sum_le_sum fun _ _ => Nat.zero_le _

theorem countBy_pos {files : List FileMeta} (hne : files ≠ [])
    (h : ∀ fm ∈ files, 1 ≤ m fm.contents) : 1 ≤ countBy m files := by
  obtain ⟨fm, hfm⟩ := List.exists_mem_of_ne_nil _ hne
  exact le_trans (h fm hfm) (List.le_sum_of_mem (List.mem_map_of_mem hfm))

/-- The inputs of a level are no longer there. -/
theorem countBy_remaining {job : CompactionJob} {files taken : List FileMeta}
    (hsub : taken.Sublist files) (hin : ∀ fm ∈ taken, fm ∈ job.inputs) :
    countBy m (job.remaining files) + countBy m taken ≤ countBy m files := by
  let inputs := fun fm : FileMeta => decide (fm.number ∉ job.inputs.map FileMeta.number)
  have htaken : taken.filter (fun fm => ! inputs fm) = taken :=
    List.filter_eq_self.2 fun fm hfm => by
      simpa [inputs] using ⟨fm, hin fm hfm, rfl⟩
  calc countBy m (job.remaining files) + countBy m taken
      ≤ countBy m (files.filter inputs) + countBy m (files.filter fun fm => ! inputs fm) :=
        Nat.add_le_add_left (countBy_sublist (htaken ▸ hsub.filter _)) _
    _ = countBy m files := by
        rw [← countBy_append]
        exact countBy_perm (List.filter_append_perm inputs files)

/-- A picked round takes files of one level, and may take some of the next, its output level. -/
theorem pick_down {opts : Options} (htrig : 1 ≤ opts.compactionTrigger) {ver : Version}
    {job : CompactionJob} (hjob : job = pickCompaction opts false ver) (hne : job.inputs ≠ []) :
    ∃ level upper lower, (level, job.outputLevel) ∈ (0, 1) :: overflowLevels ∧
      job.inputs = upper ++ lower ∧ upper ≠ [] ∧ upper.Sublist (ver.files level) ∧
      lower.Sublist (ver.files job.outputLevel) := by
  rcases pickCompaction_cases opts false ver with
    ⟨hforce, -⟩ | ⟨⟨-, hl0⟩, h⟩ | ⟨level, next, pick, hl, hpick, h⟩ | h <;> rw [← hjob] at *
  · cases hforce
  · subst h
    have hne0 : ver.files 0 ≠ [] :=
      List.length_pos_iff.1 (le_trans (UInt64.le_iff_toNat_le.1 htrig) hl0)
    exact ⟨0, ver.files 0, _, List.mem_cons_self, rfl, hne0, List.Sublist.refl _, List.filter_sublist⟩
  · subst h
    exact ⟨level, [pick], _, List.mem_cons_of_mem _ hl, rfl, List.cons_ne_nil _ _,
      List.singleton_sublist.2 hpick, List.filter_sublist⟩
  · subst h
    exact absurd rfl hne

/-- **The commit of a picked round lowers the weight**, if its outputs are no larger than its
    inputs. The version may have got further files in L0 since the pick. -/
theorem weight_commit_lt {opts : Options} (htrig : 1 ≤ opts.compactionTrigger)
    {old ver : Version} (hext : ver.Extends old) {job : CompactionJob}
    (hjob : job = pickCompaction opts false old) (hne : job.inputs ≠ [])
    (hold : ∀ fm ∈ old.allFiles, 1 ≤ m fm.contents) {outputs : List FileMeta}
    (hle : countBy m outputs ≤ countBy m job.inputs) :
    (commitVersion ver job outputs).weightBy m < ver.weightBy m := by
  obtain ⟨level, upper, lower, hl, hinputs, hupper, hsub, hsub'⟩ := pick_down htrig hjob hne
  have hpos : 1 ≤ countBy m upper := countBy_pos hupper fun fm hfm =>
    hold fm (Version.mem_allFiles.2 ⟨level, hsub.subset hfm⟩)
  have hdown : 6 - level.val = (6 - job.outputLevel.val) + 1 ∧ level ≠ job.outputLevel :=
    (by decide : ∀ p ∈ (0, 1) :: overflowLevels, 6 - p.1.val = (6 - p.2.val) + 1 ∧ p.1 ≠ p.2) _ hl
  -- what the levels have before the commit, and what they have after it
  have hbefore : ∀ l, countBy m (job.remaining (ver.files l)) +
      ((if l = level then countBy m upper else 0) +
        if l = job.outputLevel then countBy m lower else 0) ≤ countBy m (ver.files l) := by
    intro l
    by_cases h : l = level
    · rw [if_pos h, if_neg fun ho => hdown.2 (h.symm.trans ho), h]
      exact countBy_remaining (hsub.trans (hext.sublist level))
        fun fm hfm => hinputs ▸ List.mem_append_left _ hfm
    · rw [if_neg h, Nat.zero_add]
      split
      · rename_i ho
        rw [ho]
        exact countBy_remaining (hsub'.trans (hext.sublist _))
          fun fm hfm => hinputs ▸ List.mem_append_right _ hfm
      · exact countBy_sublist (remaining_sublist _ _)
  have hafter : ∀ l, countBy m ((commitVersion ver job outputs).files l) =
      countBy m (job.remaining (ver.files l)) +
        if l = job.outputLevel then countBy m outputs else 0 := by
    intro l
    split
    · rename_i ho
      rw [ho, countBy_perm (files_commit_perm ver job outputs), countBy_append]
    · rename_i ho
      rw [files_commit_of_ne ho, Nat.add_zero]
  rw [hinputs, countBy_append] at hle
  have hout := Nat.mul_le_mul_left (6 - job.outputLevel.val) hle
  calc (commitVersion ver job outputs).weightBy m
      = (∑ l : Level, (6 - l.val) * countBy m (job.remaining (ver.files l))) +
          (6 - job.outputLevel.val) * countBy m outputs := by
        simp only [Version.weightBy, hafter, mul_add, Finset.sum_add_distrib, mul_ite, mul_zero,
          Finset.sum_ite_eq', Finset.mem_univ, if_true]
    _ < (∑ l : Level, (6 - l.val) * countBy m (job.remaining (ver.files l))) +
          ((6 - level.val) * countBy m upper +
            (6 - job.outputLevel.val) * countBy m lower) := by
        rw [hdown.1, add_mul, one_mul]
        rw [mul_add] at hout
        omega
    _ ≤ ver.weightBy m := by
        have hsum := Finset.sum_le_sum fun l (_ : l ∈ Finset.univ) =>
          Nat.mul_le_mul_left (6 - l.val) (hbefore l)
        simp only [mul_add, Finset.sum_add_distrib, mul_ite, mul_zero, Finset.sum_ite_eq',
          Finset.mem_univ, if_true] at hsum
        exact hsum

end Weight

/-! ## Rounds -/

/-- A size that counts every entry, and of which a file is not larger than the entries written
    to it. The number of entries is one; so is that number with at least 1 for each file. -/
structure Sizes (m : List Entry → Nat) : Prop where
  counts : ∀ es, es.length ≤ m es
  read : ∀ es, es ≠ [] → m (contentsOf es) ≤ es.length

theorem sizes_length : Sizes List.length := ⟨fun _ => le_rfl, fun es _ => length_contentsOf_le es⟩

theorem sizes_max : Sizes fun es => max 1 es.length :=
  ⟨fun _ => le_max_right _ _, fun es hne =>
    max_le (List.length_pos_iff.2 hne) (length_contentsOf_le es)⟩

/-- The round in progress was picked, not forced, from a version of files that are not of size
    zero, which has only grown since. What it writes is no larger than what it has read. -/
structure Job.FromPick (m : List Entry → Nat) (db : DB) (j : Job) : Prop where
  picked : ∃ old, db.version.Extends old ∧ (∀ fm ∈ old.allFiles, 1 ≤ m fm.contents) ∧
    j.job = pickCompaction db.opts false old
  inputs : j.job.inputs ≠ []
  size : (j.written.map m).sum ≤ countBy m j.job.inputs

theorem written_fresh (job : CompactionJob) (chunks : List (List Entry)) :
    Job.written ⟨job, chunks, none, []⟩ = chunks.map contentsOf := by
  simp [Job.written, Job.pieces]

/-- What a merge keeps is no more than what it reads. -/
theorem length_mergeOutputs_le (oldestSnap : UInt64) (isBottommost : Bool) (target : Nat)
    (pq : SourceQueue) (sources : List (List Entry)) :
    (mergeOutputs oldestSnap isBottommost target (mergeVersions pq sources)).flatten.length ≤
      sources.flatten.length := by
  rw [flatten_mergeOutputs, ← (mergeVersions_perm pq sources).length_eq]
  exact (retain_sublist _ _ _ _).length_le

section Round

variable {m : List Entry → Nat}

/-- The files made of parts that are not empty. -/
theorem Sizes.sum_contentsOf_le (hm : Sizes m) {parts : List (List Entry)}
    (hne : ∀ es ∈ parts, es ≠ []) : ((parts.map contentsOf).map m).sum ≤ parts.flatten.length := by
  rw [List.length_flatten, List.map_map]
  exact List.sum_le_sum fun es hes => hm.read es (hne es hes)

theorem Sizes.entryCountOf_le (hm : Sizes m) (files : List FileMeta) :
    entryCountOf files ≤ countBy m files :=
  List.sum_le_sum fun fm _ => hm.counts fm.contents

theorem fromPick_pick (hm : Sizes m) {db db₀ : DB} {pq : SourceQueue} {j : Job}
    (hforce : db.forceCompact = false) (hne : ∀ fm ∈ db.version.allFiles, 1 ≤ m fm.contents)
    (h : db.pick pq = some db₀) (hj : db₀.job = some j) : j.FromPick m db₀ := by
  obtain ⟨sources, ⟨hread, hjob⟩, hin, hver, hopts⟩ :=
    beginsRound_pick h fun hnone => by rw [hnone] at hj; cases hj
  obtain rfl := Option.some.inj (hj.symm.trans hjob)
  obtain ⟨rfl, -⟩ := readInputs_inv hread
  refine ⟨⟨db.version, hver ▸ .refl _, hne, ?_⟩, hin, ?_⟩
  · rw [hopts, hforce]
  · rw [written_fresh]
    refine le_trans (hm.sum_contentsOf_le fun es hes => ?_)
      (le_trans (length_mergeOutputs_le _ _ _ _ _) ?_)
    · rw [DB.outputParts, mergeOutputs_eq] at hes
      exact splitFiles_ne_nil hes
    · rw [← entryCountOf_eq_flatten]
      exact hm.entryCountOf_le _

/-- Until its commit. -/
theorem Job.FromPick.step {db db' : DB} {j : Job} (h : j.FromPick m db) (hj : db.job = some j)
    {ev : Event} (hc : ev ≠ .commit) (hstep : db.step ev = some db') :
    ∃ j', db'.job = some j' ∧ j'.FromPick m db' := by
  obtain ⟨old, hext, hold, hjob⟩ := h.picked
  have hround := (InRound.refl hj).step hc hstep
  obtain ⟨j', hj', hjob', hwritten, -⟩ := hround.job
  refine ⟨j', hj', ⟨old, hround.version.trans hext, hold, ?_⟩, hjob' ▸ h.inputs, ?_⟩
  · rw [hjob', hjob, hround.opts]
  · rw [hwritten, hjob']
    exact h.size

/-- The commit. -/
theorem Job.FromPick.commit {db db' : DB} {j : Job} (htrig : 1 ≤ db.opts.compactionTrigger)
    (h : j.FromPick m db) (hj : db.job = some j) (hcommit : db.commit = some db') :
    (Job.outputsOf db.job = [] ∧ db'.version = db.version) ∨
      (Job.outputsOf db.job ≠ [] ∧ db'.version.weightBy m < db.version.weightBy m) := by
  obtain ⟨job, outputs, hj', hcases⟩ := DB.commit_inv hcommit
  obtain rfl := Option.some.inj (hj.symm.trans hj')
  obtain ⟨old, hext, hold, hjob⟩ := h.picked
  have hwritten : Job.written ⟨job, [], none, outputs⟩ = outputs.map FileMeta.contents := by
    simp [Job.written, Job.pieces]
  rw [hj]
  rcases hcases with ⟨hnil, rfl⟩ | ⟨hne, rfl⟩
  · exact Or.inl ⟨hnil, rfl⟩
  · refine Or.inr ⟨hne, weight_commit_lt htrig hext hjob h.inputs hold ?_⟩
    have hsize := h.size
    rwa [hwritten, List.map_map] at hsize

end Round

/-! ## Runs -/

/-- The step flushes nothing, and the store is neither compacted by a call nor closed. -/
def DB.NoFlush (db : DB) : Event → Prop
  | .flush => db.memtable.approxBytes = 0
  | .maybeFlush => db.memtable.approxBytes = 0 ∨
      db.memtable.approxBytes < db.opts.flushThresholdBytes.toNat
  | .compactCall => False
  | .reopen _ _ => False
  | _ => True

/-- The step is the commit of a round with outputs. -/
def DB.commitsOutputs (db : DB) : Event → Bool
  | .commit => Job.outputsOf db.job ≠ []
  | _ => false

theorem version_of_noFlush {db db' : DB} {ev : Event} (hq : db.NoFlush ev) (hc : ev ≠ .commit)
    (h : db.step ev = some db') : db'.version = db.version := by
  have hsame := (DB.step_frame h).version
  cases ev with
  | flush =>
    rcases DB.flush_shape h with ⟨-, rfl⟩ | ⟨hne, -⟩
    · rfl
    · exact absurd hq hne
  | maybeFlush =>
    simp only [DB.step, DB.maybeFlush] at h
    split at h
    · rename_i hlarge
      rcases DB.flush_shape h with ⟨-, rfl⟩ | ⟨hne, -⟩
      · rfl
      · exact absurd (hq.resolve_left hne) (not_lt.2 hlarge)
    · rw [Option.some.inj h]
  | commit => exact absurd rfl hc
  | reopen opts coins => exact hq.elim
  | _ => exact hsame rfl

theorem forceCompact_of_noFlush {db db' : DB} {ev : Event} (hq : db.NoFlush ev)
    (hforce : db.forceCompact = false) (h : db.step ev = some db') : db'.forceCompact = false := by
  have hsame := (DB.step_frame h).calls
  cases ev with
  | compactCall => exact hq.elim
  | compactWake =>
    obtain ⟨-, -, -, rfl⟩ := DB.compactWake_inv h
    rcases DB.compactTurn_inv db with ⟨-, he⟩ | ⟨-, he⟩ <;> rw [he]
    exact hforce
  | reopen opts coins => exact hq.elim
  | _ => exact (hsame rfl).2.trans hforce

/-- Between the steps of a run of background rounds. A file counts at least 1, also one that
    cannot be read. -/
structure DB.Background (db : DB) : Prop where
  trigger : 1 ≤ db.opts.compactionTrigger
  unforced : db.forceCompact = false
  round : ∀ j, db.job = some j → j.FromPick (fun es => max 1 es.length) db

/-- **One step of a run without flushes**: the weight falls with every committing round and
    stays as it is otherwise. -/
theorem DB.Background.step {db db' : DB} {ev : Event} (hb : db.Background) (hq : db.NoFlush ev)
    (h : db.step ev = some db') : db'.Background ∧
      db'.version.weightBy (fun es => max 1 es.length) + (if db.commitsOutputs ev then 1 else 0) ≤
        db.version.weightBy fun es => max 1 es.length := by
  have ho : ev.ofOpen = false := by
    cases ev with
    | reopen opts coins => exact hq.elim
    | _ => rfl
  have htrig : 1 ≤ db'.opts.compactionTrigger := by
    rw [((DB.step_frame h).counters ho).1]
    exact hb.trigger
  have hforce := forceCompact_of_noFlush hq hb.unforced h
  by_cases hc : ev = .commit
  · subst hc
    obtain ⟨job, outputs, hj, -⟩ := DB.commit_inv h
    have hnone : db'.job = none := by
      obtain ⟨_, _, -, ⟨-, rfl⟩ | ⟨-, rfl⟩⟩ := DB.commit_inv h <;> rfl
    refine ⟨⟨htrig, hforce, fun j hj => by rw [hnone] at hj; cases hj⟩, ?_⟩
    rcases (hb.round _ hj).commit hb.trigger hj h with ⟨hnil, hver⟩ | ⟨hne, hlt⟩
    · simp [DB.commitsOutputs, hnil, hver]
    · simpa [DB.commitsOutputs, hne] using hlt
  · have hver := version_of_noFlush hq hc h
    have hnot : db.commitsOutputs ev = false := by
      cases ev with
      | commit => exact absurd rfl hc
      | _ => rfl
    refine ⟨⟨htrig, hforce, fun j' hj' => ?_⟩, by simp [hnot, hver]⟩
    have hre : ∀ opts coins, ev ≠ .reopen opts coins := by
      rintro opts coins rfl
      exact hq.elim
    rcases DB.round_before hre h hj' with ⟨pq, rfl, -⟩ | ⟨j, hj, -⟩
    · exact fromPick_pick sizes_max hb.unforced (fun _ _ => le_max_left _ _) h hj'
    · obtain ⟨j₁, hj₁, hfrom⟩ := (hb.round j hj).step hj hc h
      exact Option.some.inj (hj'.symm.trans hj₁) ▸ hfrom

/-- Where every file has an entry, counting at least 1 for each changes nothing. -/
theorem weightBy_max {ver : Version} (h : ∀ fm ∈ ver.allFiles, fm.contents ≠ []) :
    ver.weightBy (fun es => max 1 es.length) = ver.weight := by
  refine Finset.sum_congr rfl fun l _ => congrArg _ (congrArg List.sum (List.map_congr_left ?_))
  exact fun fm hfm => max_eq_right
    (List.length_pos_iff.2 (h fm (Version.mem_allFiles.2 ⟨l, hfm⟩)))

/-- **Background compaction makes progress and comes to rest.** In a version of files with
    entries, with no call of `compact` at work and a trigger of at least 1:
    a round is asked for exactly if the picker finds inputs; each round that commits outputs,
    whatever happens while it merges, makes the version lighter; and a run without flushes has
    at most as many committing rounds as the version weighs at its start. -/
theorem background_progress {db : DB} (htrig : 1 ≤ db.opts.compactionTrigger)
    (hforce : db.forceCompact = false) (hfilled : ∀ fm ∈ db.version.allFiles, fm.contents ≠ []) :
    (needsCompaction db.opts db.version = true ↔
      (pickCompaction db.opts db.forceCompact db.version).inputs ≠ []) ∧
    (∀ pq evs db₀ db₁ db', db.pick pq = some db₀ → db₀.job ≠ none →
      (∀ ev ∈ evs, ev ≠ .commit) → db₀.run evs = some db₁ → db₁.commit = some db' →
      Job.outputsOf db₁.job ≠ [] → db'.version.weight < db₁.version.weight) ∧
    (db.job = none → ∀ evs, Steps.Meets DB.step DB.NoFlush db evs →
      Steps.count DB.step DB.commitsOutputs db evs ≤ db.version.weight) := by
  refine ⟨hforce ▸ needs_iff_pick htrig db.version, ?_, fun hjob evs hevs => ?_⟩
  · intro pq evs db₀ db₁ db' hpick hround hevs hrun hcommit hout
    obtain ⟨j, hj⟩ := Option.ne_none_iff_exists'.1 hround
    have hopts : db₀.opts = db.opts := by
      obtain ⟨-, -, -, -, hopts⟩ := beginsRound_pick hpick hround
      exact hopts
    have hfrom₀ := fromPick_pick sizes_length hforce
      (fun fm hfm => List.length_pos_iff.2 (hfilled fm hfm)) hpick hj
    obtain ⟨⟨j₁, hj₁, hfrom⟩, htrig₁⟩ :=
      @Steps.run_invariant DB Event DB.step (fun _ ev => ev ≠ .commit) db₀ db₁ evs
        (fun db => (∃ j, db.job = some j ∧ j.FromPick List.length db) ∧
          1 ≤ db.opts.compactionTrigger)
        (fun s ev s' hI hev hs => by
          obtain ⟨⟨j, hj, hfrom⟩, ht⟩ := hI
          refine ⟨hfrom.step hj hev hs, ?_⟩
          rw [((InRound.refl hj).step hev hs).opts]
          exact ht)
        ⟨⟨j, hj, hfrom₀⟩, hopts ▸ htrig⟩ (Steps.Meets.of_mem hevs) hrun
    rcases hfrom.commit htrig₁ hj₁ hcommit with ⟨hnil, -⟩ | ⟨-, hlt⟩
    · exact absurd hnil hout
    · exact hlt
  · have hstart : db.Background := ⟨htrig, hforce, fun j hj => by rw [hjob] at hj; cases hj⟩
    rw [← weightBy_max hfilled]
    exact Steps.count_le (fun db => db.version.weightBy fun es => max 1 es.length)
      (fun _ _ _ hb hq h => hb.step hq h) hstart hevs

/-- A round over one table: its commit is the only one, and takes the table to L1. -/
theorem background_progress_one : ∃ (db : DB) (evs : List Event),
    Steps.count DB.step DB.commitsOutputs db evs = 1 ∧
      Steps.count DB.step DB.commitsOutputs db evs ≤ db.version.weight := by
  have h : ((DB.create { compactionTrigger := 1 }).run (callPut 97 1 ++ [Event.flush])).map (fun a =>
      decide (1 ≤ a.opts.compactionTrigger ∧ a.forceCompact = false ∧
        (∀ fm ∈ a.version.allFiles, fm.contents ≠ []) ∧ a.job.isNone ∧
        Steps.count DB.step DB.commitsOutputs a
          [.pick plainQueue, .startWriter, .finishWriter, .commit] = 1)) = some true := by
    decide +kernel
  obtain ⟨a, -, h⟩ := Option.map_eq_some_iff.1 h
  obtain ⟨htrig, hforce, hfilled, hjob, hcount⟩ := of_decide_eq_true h
  have hmeets : Steps.Meets DB.step DB.NoFlush a
      [.pick plainQueue, .startWriter, .finishWriter, .commit] :=
    ⟨trivial, fun _ _ => ⟨trivial, fun _ _ => ⟨trivial, fun _ _ => ⟨trivial, fun _ _ => trivial⟩⟩⟩⟩
  exact ⟨a, _, hcount,
    (background_progress htrig hforce hfilled).2.2 (by simpa using hjob) _ hmeets⟩

end Keystone
