/-
  File numbers.

  The numbers of the tables are names: a step reads them only to tell files apart and to find the
  oldest one of a level. So a state whose files are renumbered in the same order takes the same
  steps (`DB.Renumbered.run`) and answers every read alike (`DB.Renumbered.reads`); a state with
  one number allocated for nothing is such a state (`DB.NumbersBelow.skipped`). Opening a
  directory is not among these steps, since the MANIFEST keeps the numbers in bytes.
-/
import Keystone.AnyLength
import Keystone.Read

namespace Keystone

/-! ## Versions and jobs -/

/-- The file under another number. -/
def FileMeta.renumber (ρ : Nat → Nat) (fm : FileMeta) : FileMeta :=
  { fm with number := ρ fm.number }

def Version.renumber (ρ : Nat → Nat) (ver : Version) : Version :=
  ⟨fun l => (ver.files l).map (FileMeta.renumber ρ)⟩

def CompactionJob.renumber (ρ : Nat → Nat) (job : CompactionJob) : CompactionJob :=
  { job with inputs := job.inputs.map (FileMeta.renumber ρ) }

def Job.renumber (ρ : Nat → Nat) (j : Job) : Job where
  job := j.job.renumber ρ
  chunks := j.chunks
  writer := j.writer.map fun w => (ρ w.1, w.2)
  outputs := j.outputs.map (FileMeta.renumber ρ)

section Renumber

variable {ρ : Nat → Nat}

theorem allFiles_renumber (ver : Version) :
    (ver.renumber ρ).allFiles = ver.allFiles.map (FileMeta.renumber ρ) :=
  List.map_flatMap.symm

theorem pushL0_renumber (ver : Version) (fm : FileMeta) :
    (ver.pushL0 fm).renumber ρ = (ver.renumber ρ).pushL0 (fm.renumber ρ) := by
  unfold Version.renumber Version.pushL0
  congr 1
  funext l
  dsimp only
  split <;> simp

theorem levelBytes_renumber (ver : Version) (l : Level) :
    (ver.renumber ρ).levelBytes l = ver.levelBytes l := by
  unfold Version.levelBytes Version.renumber
  rw [List.foldl_map]
  rfl

theorem maxPopulatedLevel_renumber (ver : Version) :
    (ver.renumber ρ).maxPopulatedLevel = ver.maxPopulatedLevel := by
  simp [Version.maxPopulatedLevel, Version.renumber]

theorem needsCompaction_renumber (opts : Options) (ver : Version) :
    needsCompaction opts (ver.renumber ρ) = needsCompaction opts ver := by
  unfold needsCompaction
  simp only [levelBytes_renumber]
  simp [Version.renumber]

theorem compactDone_renumber (ver : Version) :
    DB.compactDone (ver.renumber ρ) = DB.compactDone ver := by
  unfold DB.compactDone Version.totalFileCount
  rw [allFiles_renumber]
  simp [Version.renumber]

/-! ## Picking -/

theorem forcedJob_renumber (ver : Version) :
    forcedJob (ver.renumber ρ) = (forcedJob ver).renumber ρ := by
  unfold forcedJob
  rw [allFiles_renumber, List.length_map]
  split <;> rfl

theorem l0Range_renumber (files : List FileMeta) :
    l0Range (files.map (FileMeta.renumber ρ)) = l0Range files := by
  unfold l0Range
  rw [List.foldl_map]
  rfl

theorem filter_overlaps_renumber (files : List FileMeta) (lo hi : Bytes) :
    (files.map (FileMeta.renumber ρ)).filter (fun fm => fm.overlaps lo hi) =
      (files.filter fun fm => fm.overlaps lo hi).map (FileMeta.renumber ρ) := by
  rw [List.filter_map]
  rfl

theorem l0Job_renumber (ver : Version) : l0Job (ver.renumber ρ) = (l0Job ver).renumber ρ := by
  unfold l0Job
  rw [maxPopulatedLevel_renumber]
  simp only [Version.renumber, CompactionJob.renumber, l0Range_renumber, filter_overlaps_renumber,
    List.map_append]

theorem moveJob_renumber (ver : Version) (next : Level) (pick : FileMeta) :
    moveJob (ver.renumber ρ) next (pick.renumber ρ) = (moveJob ver next pick).renumber ρ := by
  unfold moveJob
  rw [maxPopulatedLevel_renumber]
  simp only [Version.renumber, CompactionJob.renumber, FileMeta.renumber, List.map_cons]
  congr 2
  exact filter_overlaps_renumber _ _ _

/-- The order of the numbers stays, and so does the oldest file. -/
theorem oldestFile_renumber (hρ : StrictMono ρ) (files : List FileMeta) :
    oldestFile (files.map (FileMeta.renumber ρ)) =
      (oldestFile files).map (FileMeta.renumber ρ) := by
  unfold oldestFile
  rw [List.foldl_map]
  show List.foldl _ ((none : Option FileMeta).map (FileMeta.renumber ρ)) files = _
  refine List.foldl_hom (Option.map (FileMeta.renumber ρ)) fun pick fm => ?_
  cases pick with
  | none => rfl
  | some p =>
    have hlt : (fm.renumber ρ).number < (p.renumber ρ).number ↔ fm.number < p.number :=
      hρ.lt_iff_lt
    by_cases h : fm.number < p.number
    · simp only [Option.map_some, if_pos h, if_pos (hlt.2 h)]
    · simp only [Option.map_some, if_neg h, if_neg (mt hlt.1 h)]

theorem overflowJob_renumber (hρ : StrictMono ρ) (opts : Options) (ver : Version)
    (level next : Level) : overflowJob opts (ver.renumber ρ) level next =
      (overflowJob opts ver level next).map (CompactionJob.renumber ρ) := by
  unfold overflowJob
  rw [levelBytes_renumber]
  split
  · rfl
  · show (oldestFile ((ver.files level).map (FileMeta.renumber ρ))).map
      (moveJob (ver.renumber ρ) next) = _
    rw [oldestFile_renumber hρ, Option.map_map, Option.map_map]
    congr 1
    funext pick
    exact moveJob_renumber ver next pick

theorem pickCompaction_renumber (hρ : StrictMono ρ) (opts : Options) (force : Bool)
    (ver : Version) : pickCompaction opts force (ver.renumber ρ) =
      (pickCompaction opts force ver).renumber ρ := by
  unfold pickCompaction
  have hlen : ((ver.renumber ρ).files 0).length = (ver.files 0).length := List.length_map _
  rw [forcedJob_renumber, l0Job_renumber, hlen]
  split
  · rfl
  · split
    · rfl
    · have hfind : (overflowLevels.findSome? fun l => overflowJob opts (ver.renumber ρ) l.1 l.2) =
          (overflowLevels.findSome? fun l => overflowJob opts ver l.1 l.2).map
            (CompactionJob.renumber ρ) := by
        simp only [overflowJob_renumber hρ]
        exact List.map_findSome?.symm
      rw [hfind]
      cases overflowLevels.findSome? fun l => overflowJob opts ver l.1 l.2 <;> rfl

/-! ## Committing -/

theorem remaining_renumber (hρ : StrictMono ρ) (job : CompactionJob) (files : List FileMeta) :
    (job.renumber ρ).remaining (files.map (FileMeta.renumber ρ)) =
      (job.remaining files).map (FileMeta.renumber ρ) := by
  unfold CompactionJob.remaining
  rw [List.filter_map]
  congr 1
  refine List.filter_congr fun fm _ => ?_
  simp only [CompactionJob.renumber, List.map_map, Function.comp_apply, decide_eq_decide]
  refine not_congr ⟨fun h => ?_, fun h => ?_⟩
  · obtain ⟨g, hg, he⟩ := List.mem_map.1 h
    exact List.mem_map.2 ⟨g, hg, hρ.injective he⟩
  · obtain ⟨g, hg, he⟩ := List.mem_map.1 h
    exact List.mem_map.2 ⟨g, hg, congrArg ρ he⟩

theorem sortByKey_renumber (files : List FileMeta) :
    sortByKey (files.map (FileMeta.renumber ρ)) = (sortByKey files).map (FileMeta.renumber ρ) :=
  (List.map_insertionSort (fun a b : FileMeta => a.smallestKey ≤ b.smallestKey)
    (fun a b : FileMeta => a.smallestKey ≤ b.smallestKey) (FileMeta.renumber ρ) files
    fun _ _ _ _ => Iff.rfl).symm

theorem commitVersion_renumber (hρ : StrictMono ρ) (ver : Version) (job : CompactionJob)
    (outputs : List FileMeta) :
    commitVersion (ver.renumber ρ) (job.renumber ρ) (outputs.map (FileMeta.renumber ρ)) =
      (commitVersion ver job outputs).renumber ρ := by
  unfold commitVersion Version.renumber
  congr 1
  funext l
  dsimp only
  rw [remaining_renumber hρ, ← List.map_append, sortByKey_renumber]
  by_cases hl : l = job.outputLevel
  · rw [if_pos hl, if_pos (show l = (job.renumber ρ).outputLevel from hl)]
    split <;> rfl
  · rw [if_neg hl, if_neg (show ¬ l = (job.renumber ρ).outputLevel from hl)]

theorem readInputs_renumber (inputs : List FileMeta) :
    DB.readInputs (inputs.map (FileMeta.renumber ρ)) = DB.readInputs inputs := by
  unfold DB.readInputs
  rw [List.mapM_map]
  rfl

theorem buildTable_renumber (ρ : Nat → Nat) (number : Nat) (level : Level) (es : List Entry) :
    DB.buildTable (ρ number) level es =
      (DB.buildTable number level es).map fun p => (p.1, p.2.renumber ρ) := by
  unfold DB.buildTable
  dsimp only
  split
  · rfl
  · split <;> rfl

theorem buildTable_number {number : Nat} {level : Level} {es : List Entry} {file : Bytes}
    {fm : FileMeta} (h : DB.buildTable number level es = some (file, fm)) : fm.number = number := by
  unfold DB.buildTable at h
  dsimp only at h
  split at h
  · exact nomatch h
  · split at h
    · exact nomatch h
    · obtain ⟨-, rfl⟩ := Prod.mk.inj (Option.some.inj h)
      rfl

end Renumber

/-! ## Reads -/

section Reads

variable {ρ : Nat → Nat}

theorem levelLookup_renumber (files : List FileMeta) (key : Bytes) (snapSeq : UInt64) :
    levelLookup (files.map (FileMeta.renumber ρ)) key snapSeq = levelLookup files key snapSeq := by
  have hbound : upperBound (files.map (FileMeta.renumber ρ)) key = upperBound files key := by
    unfold upperBound
    simp only [List.getElem?_map, Option.map_map, List.length_map]
    rfl
  unfold levelLookup
  rw [hbound]
  cases upperBound files key with
  | zero => rfl
  | succ i =>
    simp only [List.getElem?_map]
    cases files[i]? <;> rfl

/-- The two states answer every read alike. -/
structure DB.SameReads (a b : DB) : Prop where
  get : ∀ key snapSeq, b.getImpl key snapSeq = a.getImpl key snapSeq
  scan : ∀ pq start last snapSeq,
    b.scanImpl pq start last snapSeq = a.scanImpl pq start last snapSeq

theorem DB.SameReads.of_renumber {a b : DB} (hmem : b.memtable = a.memtable)
    (hver : b.version = a.version.renumber ρ) : a.SameReads b := by
  constructor
  · intro key snapSeq
    unfold DB.getImpl Version.getAfter
    rw [hmem, hver]
    simp only [Version.renumber, levelLookup_renumber, ← List.map_reverse, List.map_map]
    rfl
  · intro pq start last snapSeq
    have htables : b.version.scanTables start last =
        (a.version.scanTables start last).map (FileMeta.renumber ρ) := by
      unfold Version.scanTables
      rw [hver, List.map_append, List.map_flatMap]
      congr 2
      funext level
      exact List.filter_map
    unfold DB.scanImpl DB.mtSnapshot Version.scanAfter
    rw [hmem, htables, List.mapM_map]
    rfl

end Reads

/-! ## Steps -/

/-- `b` is `a` with the files renumbered, whatever else the directory has. Numbers that are not
    yet in use correspond in their order. -/
structure DB.Renumbered (ρ : Nat → Nat) (a b : DB) : Prop where
  wal : b.dir.wal = a.dir.wal
  opts : b.opts = a.opts
  memtable : b.memtable = a.memtable
  version : b.version = a.version.renumber ρ
  next : ∀ i, ρ (a.nextSst + i) = b.nextSst + i
  nextSeq : b.nextSeq = a.nextSeq
  liveSnapshots : b.liveSnapshots = a.liveSnapshots
  pending : b.compactionPending = a.compactionPending
  force : b.forceCompact = a.forceCompact
  job : b.job = a.job.map (Job.renumber ρ)
  inflight : b.inflight = a.inflight
  doomed : b.doomed = a.doomed.map ρ
  waiting : b.waiting = a.waiting

/-- The same event; only `unlink` names a file. -/
def Event.renumber (ρ : Nat → Nat) : Event → Event
  | .unlink number => .unlink (ρ number)
  | ev => ev

namespace DB.Renumbered

variable {ρ : Nat → Nat} {a b : DB}

theorem reads (h : a.Renumbered ρ b) : a.SameReads b := .of_renumber h.memtable h.version

/-- The next number, once it is taken. -/
theorem next_succ (h : a.Renumbered ρ b) (i : Nat) :
    ρ (a.nextSst + 1 + i) = b.nextSst + 1 + i := by
  rw [Nat.add_assoc, h.next, Nat.add_assoc]

theorem job_isNone (h : a.Renumbered ρ b) : b.job.isNone = a.job.isNone := by
  rw [h.job, Option.isNone_map]

theorem assign (h : a.Renumbered ρ b) (ops : List Op) :
    Option.Rel (DB.Renumbered ρ) (a.assign ops) (b.assign ops) := by
  unfold DB.assign
  rw [h.inflight, h.nextSeq]
  split
  · exact .some { h with inflight := rfl, nextSeq := rfl }
  · exact .none

theorem apply (h : a.Renumbered ρ b) (coins : List (List Bool)) :
    Option.Rel (DB.Renumbered ρ) (a.apply coins) (b.apply coins) := by
  unfold DB.apply
  rw [h.inflight, h.memtable]
  split
  · refine .some { h with wal := ?_, memtable := rfl, inflight := rfl }
    simp only [Dir.execAll, List.foldl_cons, List.foldl_nil, Dir.exec, h.wal]
  · exact .none

theorem flush (h : a.Renumbered ρ b) (ha : a.nextSst < 2 ^ 31 - 1) (hb : b.nextSst < 2 ^ 31 - 1) :
    Option.Rel (DB.Renumbered ρ) a.flush b.flush := by
  have hnumber : b.nextSst = ρ a.nextSst := (h.next 0).symm
  unfold DB.flush DB.allocSst
  rw [h.memtable, if_pos ha, if_pos hb]
  split
  · exact .some h
  · simp only [Option.bind_eq_bind, Option.bind_some, hnumber, buildTable_renumber]
    cases DB.buildTable a.nextSst 0 a.memtable.entries with
    | none => exact .none
    | some p =>
      simp only [Option.map_some, Option.bind_some, h.version, h.opts, h.pending, h.job_isNone,
        ← pushL0_renumber]
      refine .some { h with
        wal := ?_
        opts := rfl
        memtable := rfl
        version := rfl
        next := fun i => by rw [← hnumber]; exact h.next_succ i
        pending := by simp [Version.renumber] }
      simp only [DB.flushOps, Dir.execAll, List.foldl_cons, List.foldl_nil, Dir.exec, h.wal]

theorem maybeFlush (h : a.Renumbered ρ b) (ha : a.nextSst < 2 ^ 31 - 1)
    (hb : b.nextSst < 2 ^ 31 - 1) : Option.Rel (DB.Renumbered ρ) a.maybeFlush b.maybeFlush := by
  unfold DB.maybeFlush
  rw [h.opts, h.memtable]
  split
  · exact h.flush ha hb
  · exact .some h

theorem compactTurn (h : a.Renumbered ρ b) : a.compactTurn.Renumbered ρ b.compactTurn := by
  unfold DB.compactTurn
  rw [h.version, compactDone_renumber]
  split
  · exact { h with version := rfl, force := rfl, waiting := congrArg (· - 1) h.waiting }
  · exact { h with version := rfl, pending := by rw [h.pending, h.job_isNone] }

theorem compactCall (h : a.Renumbered ρ b) : a.compactCall.Renumbered ρ b.compactCall :=
  compactTurn { h with force := rfl, waiting := congrArg (· + 1) h.waiting }

theorem compactWake (h : a.Renumbered ρ b) :
    Option.Rel (DB.Renumbered ρ) a.compactWake b.compactWake := by
  unfold DB.compactWake
  rw [h.waiting, h.pending, h.job_isNone]
  split
  · exact .some h.compactTurn
  · exact .none

theorem pick (h : a.Renumbered ρ b) (hρ : StrictMono ρ) (pq : SourceQueue) :
    Option.Rel (DB.Renumbered ρ) (a.pick pq) (b.pick pq) := by
  have hold : b.oldestLiveSnapshot = a.oldestLiveSnapshot := by
    rw [DB.oldestLiveSnapshot, h.liveSnapshots]
    rfl
  have hjob := pickCompaction_renumber hρ a.opts a.forceCompact a.version
  have hnil : (pickCompaction a.opts a.forceCompact (a.version.renumber ρ)).inputs = [] ↔
      (pickCompaction a.opts a.forceCompact a.version).inputs = [] := by
    rw [hjob]
    exact List.map_eq_nil_iff
  have hinputs : DB.readInputs
      (pickCompaction a.opts a.forceCompact (a.version.renumber ρ)).inputs =
      DB.readInputs (pickCompaction a.opts a.forceCompact a.version).inputs := by
    rw [hjob]
    exact readInputs_renumber _
  unfold DB.pick DB.pickWith
  rw [h.pending, h.job_isNone]
  split
  · dsimp only
    rw [h.opts, h.force, h.version, hinputs]
    by_cases hin : (pickCompaction a.opts a.forceCompact a.version).inputs = []
    · rw [if_pos hin, if_pos (hnil.2 hin)]
      exact .some { h with opts := rfl, force := rfl, version := rfl, pending := rfl }
    · rw [if_neg hin, if_neg fun hb => hin (hnil.1 hb)]
      cases DB.readInputs (pickCompaction a.opts a.forceCompact a.version).inputs with
      | error fault => exact .none
      | ok sources =>
        refine .some { h with
          opts := rfl, force := rfl, version := rfl, pending := rfl, job := ?_ }
        simp only [hjob, Option.map_some, Job.renumber, Option.map_none, List.map_nil]
        exact congrArg (fun oldest => some (Job.mk _ (mergeOutputs oldest _ _ _) none [])) hold
  · exact .none

theorem startWriter (h : a.Renumbered ρ b) (ha : a.nextSst < 2 ^ 31 - 1)
    (hb : b.nextSst < 2 ^ 31 - 1) : Option.Rel (DB.Renumbered ρ) a.startWriter b.startWriter := by
  have hnumber : b.nextSst = ρ a.nextSst := (h.next 0).symm
  unfold DB.startWriter DB.allocSst
  rw [h.job, if_pos ha, if_pos hb]
  rcases a.job with _ | ⟨job, _ | ⟨chunk, chunks⟩, _ | w, outputs⟩
  case some.cons.none =>
    refine .some { h with
      wal := h.wal
      next := h.next_succ
      job := ?_ }
    simp [Job.renumber, hnumber]
  all_goals exact .none

theorem finishWriter (h : a.Renumbered ρ b) :
    Option.Rel (DB.Renumbered ρ) a.finishWriter b.finishWriter := by
  unfold DB.finishWriter
  rw [h.job]
  rcases a.job with _ | ⟨job, chunks, _ | ⟨number, chunk⟩, outputs⟩
  case some.some =>
    simp only [Option.map_some, Job.renumber, CompactionJob.renumber, buildTable_renumber]
    cases DB.buildTable number job.outputLevel chunk with
    | none => exact .none
    | some p =>
      refine .some { h with wal := h.wal, job := ?_ }
      simp [Job.renumber, CompactionJob.renumber]
  all_goals exact .none

theorem commit (h : a.Renumbered ρ b) (hρ : StrictMono ρ) :
    Option.Rel (DB.Renumbered ρ) a.commit b.commit := by
  unfold DB.commit
  rw [h.job]
  rcases a.job with _ | ⟨job, _ | ⟨chunk, chunks⟩, _ | w, outputs⟩
  case some.nil.none =>
    simp only [Option.map_some, Job.renumber, Option.map_none, List.map_eq_nil_iff]
    rw [h.version, commitVersion_renumber hρ, h.opts, needsCompaction_renumber,
      needsCompaction_renumber]
    split
    · exact .some { h with
        opts := rfl, version := rfl, job := rfl, pending := by rw [h.pending] }
    · refine .some { h with
        wal := h.wal
        opts := rfl
        version := rfl
        job := rfl
        pending := by rw [h.pending]
        doomed := ?_ }
      simp [h.doomed, CompactionJob.renumber, FileMeta.renumber]
  all_goals exact .none

theorem unlink (h : a.Renumbered ρ b) (hρ : StrictMono ρ) (number : Nat) :
    Option.Rel (DB.Renumbered ρ) (a.unlink number) (b.unlink (ρ number)) := by
  unfold DB.unlink
  rw [h.doomed]
  simp only [List.mem_map, hρ.injective.eq_iff, exists_eq_right]
  split
  · refine .some { h with wal := h.wal, doomed := ?_ }
    rw [List.filter_map]
    simp [Function.comp_def, hρ.injective.eq_iff]
  · exact .none

/-- **One step** that opens no directory, while numbers are left. -/
theorem step (h : a.Renumbered ρ b) (hρ : StrictMono ρ) (hb : b.nextSst < 2 ^ 31 - 1)
    {ev : Event} (hev : ∀ opts coins, ev ≠ .reopen opts coins) :
    Option.Rel (DB.Renumbered ρ) (a.step ev) (b.step (ev.renumber ρ)) := by
  have ha : a.nextSst < 2 ^ 31 - 1 := by
    have hle : a.nextSst ≤ ρ (a.nextSst + 0) := hρ.le_apply
    rw [h.next 0] at hle
    omega
  cases ev with
  | assign ops => exact h.assign ops
  | apply coins => exact h.apply coins
  | flush => exact h.flush ha hb
  | maybeFlush => exact h.maybeFlush ha hb
  | getSnapshot =>
    exact .some { h with
      liveSnapshots := congrArg₂ (fun seq live => (seq - 1) :: live) h.nextSeq h.liveSnapshots }
  | releaseSnapshot seq =>
    exact .some { h with liveSnapshots := congrArg (·.erase seq) h.liveSnapshots }
  | compactCall => exact .some h.compactCall
  | compactWake => exact h.compactWake
  | pick pq => exact h.pick hρ pq
  | startWriter => exact h.startWriter ha hb
  | finishWriter => exact h.finishWriter
  | commit => exact h.commit hρ
  | unlink number => exact h.unlink hρ number
  | reopen opts coins => exact absurd rfl (hev opts coins)

/-- **A whole run.** -/
theorem run (h : a.Renumbered ρ b) (hρ : StrictMono ρ) {evs : List Event}
    (hev : ∀ ev ∈ evs, ∀ opts coins, ev ≠ .reopen opts coins)
    (hnum : Steps.Meets DB.step (fun s _ => s.nextSst < 2 ^ 31 - 1) b
      (evs.map (Event.renumber ρ))) :
    Option.Rel (DB.Renumbered ρ) (Steps.run DB.step a evs)
      (Steps.run DB.step b (evs.map (Event.renumber ρ))) := by
  induction evs generalizing a b with
  | nil => exact .some h
  | cons ev evs ih =>
    have hrel := h.step hρ hnum.1 (hev ev List.mem_cons_self)
    have hrest := hnum.2
    simp only [List.map_cons, Steps.run]
    generalize a.step ev = x at hrel ⊢
    generalize b.step (ev.renumber ρ) = y at hrel hrest ⊢
    cases hrel with
    | none => exact .none
    | some h' => exact ih h' (fun ev hmem => hev ev (List.mem_cons_of_mem _ hmem)) (hrest _ rfl)

end DB.Renumbered

/-! ## One number left out -/

/-- Leave out the number `n`. -/
def skip (n m : Nat) : Nat := if m < n then m else m + 1

theorem strictMono_skip (n : Nat) : StrictMono (skip n) := by
  intro a b hab
  unfold skip
  split <;> split <;> omega

theorem map_renumber_skip {n : Nat} {files : List FileMeta} (h : ∀ fm ∈ files, fm.number < n) :
    files.map (FileMeta.renumber (skip n)) = files := by
  refine (List.map_congr_left fun fm hfm => ?_).trans files.map_id
  rw [FileMeta.renumber, skip, if_pos (h fm hfm)]
  rfl

theorem Job.renumber_skip {n : Nat} {j : Job} (hin : ∀ fm ∈ j.job.inputs, fm.number < n)
    (hout : ∀ fm ∈ j.outputs, fm.number < n) (hwriter : ∀ w, j.writer = some w → w.1 < n) :
    j.renumber (skip n) = j := by
  obtain ⟨job, chunks, _ | w, outputs⟩ := j
  · simp only [Job.renumber, CompactionJob.renumber, map_renumber_skip hin,
      map_renumber_skip hout, Option.map_none]
  · simp only [Job.renumber, CompactionJob.renumber, map_renumber_skip hin,
      map_renumber_skip hout, Option.map_some, skip, if_pos (hwriter w rfl)]

/-- The numbers in use are below the next one. -/
structure DB.NumbersBelow (db : DB) : Prop where
  version : ∀ fm ∈ db.version.allFiles, fm.number < db.nextSst
  outputs : ∀ fm ∈ Job.outputsOf db.job, fm.number < db.nextSst
  inputs : ∀ fm ∈ Job.inputsOf db.job, fm.number < db.nextSst
  writer : ∀ n ∈ Job.writerNumbers db.job, n < db.nextSst
  doomed : ∀ n ∈ db.doomed, n < db.nextSst

/-- A state with one number allocated for nothing. -/
theorem DB.NumbersBelow.skipped {db : DB} (h : db.NumbersBelow) {dir : Dir}
    (hwal : dir.wal = db.dir.wal) :
    db.Renumbered (skip db.nextSst) { db with dir := dir, nextSst := db.nextSst + 1 } where
  wal := hwal
  opts := rfl
  memtable := rfl
  version := by
    show (⟨db.version.files⟩ : Version) = ⟨_⟩
    congr 1
    funext l
    exact (map_renumber_skip fun fm hfm => h.version fm (Version.mem_allFiles.2 ⟨l, hfm⟩)).symm
  next i := by
    rw [skip, if_neg (by omega)]
    show db.nextSst + i + 1 = db.nextSst + 1 + i
    omega
  nextSeq := rfl
  liveSnapshots := rfl
  pending := rfl
  force := rfl
  job := by
    have hout := h.outputs
    have hin := h.inputs
    have hwri := h.writer
    show db.job = _
    cases hj : db.job with
    | none => rfl
    | some j =>
      rw [hj] at hout hin hwri
      rw [Option.map_some, Job.renumber_skip hin hout fun w hw => hwri w.1 ?_]
      rw [Job.writerNumbers, Option.bind_some, hw]
      exact List.mem_cons_self
  inflight := rfl
  doomed := by
    show db.doomed = _
    refine ((List.map_congr_left fun n hn => ?_).trans db.doomed.map_id).symm
    rw [skip, if_pos (h.doomed n hn)]
    rfl
  waiting := rfl

end Keystone
