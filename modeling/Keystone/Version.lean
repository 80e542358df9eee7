/-
  The file set and the choice of a compaction round.

  `Version` has the live tables, seven levels of them. `pickCompaction` is
  `DB::pick_compaction`: every file when forced, all of L0 with the overlapping files of L1
  when L0 is full, or the oldest file of an overfull level with the overlapping files of the
  next. `commitVersion` is the version a round leaves behind.

  * `pickCompaction_cases`: the rounds there are.
  * `allFiles_commit`, `allFiles_pushL0`: the files of a version after a round and after a flush.
-/
import Keystone.Manifest
import Keystone.MergeIterator
import Keystone.Retention
import Keystone.SSTableIter

namespace Keystone

/-- `Options`, without the sync mode and the size of the block cache. -/
structure Options where
  flushThresholdBytes : UInt64 := 4 * 1024 * 1024
  compactionTrigger : UInt64 := 4
  targetFileSize : UInt64 := 2 * 1024 * 1024
  l1MaxBytes : UInt64 := 8 * 1024 * 1024
  levelSizeMultiplier : UInt64 := 10
  deriving DecidableEq, Repr

/-- `Version::kMaxLevels`. -/
abbrev kMaxLevels : Nat := 7

instance : NeZero kMaxLevels := ⟨by decide⟩

abbrev Level := Fin kMaxLevels

/-- `FileMeta`. -/
structure FileMeta where
  number : Nat
  level : Level
  smallestKey : Bytes
  largestKey : Bytes
  table : SSTable
  deriving DecidableEq, Repr

/-- What the MANIFEST stores of a file. -/
def FileMeta.manifestEntry (fm : FileMeta) : ManifestEntry :=
  ⟨Int32.ofNat fm.number, Int32.ofNat fm.level, fm.smallestKey, fm.largestKey⟩

/-- `Version`. -/
structure Version where
  files : Level → List FileMeta

namespace Version

/-- The version of a fresh directory. -/
def empty : Version := ⟨fun _ => []⟩

/-- Every live file, level by level. -/
def allFiles (ver : Version) : List FileMeta := (List.finRange kMaxLevels).flatMap ver.files

/-- `DB::total_file_count`. -/
def totalFileCount (ver : Version) : Nat := ver.allFiles.length

/-- `DB::max_populated_level`. -/
def maxPopulatedLevel (ver : Version) : Level :=
  ((List.finRange kMaxLevels).reverse.find? fun l => ver.files l ≠ []).getD 0

/-- `DB::level_bytes`. -/
def levelBytes (ver : Version) (level : Level) : UInt64 :=
  (ver.files level).foldl (fun total fm => total + fm.table.entryCount * 64) 0

/-- `DB::version_to_manifest`. -/
def toManifest (ver : Version) : List ManifestEntry := ver.allFiles.map FileMeta.manifestEntry

/-- `files[0].push_back`. -/
def pushL0 (ver : Version) (fm : FileMeta) : Version :=
  ⟨fun l => if l = 0 then ver.files 0 ++ [fm] else ver.files l⟩

end Version

/-- `DB::max_level_bytes`. -/
def maxLevelBytes (opts : Options) (level : Level) : UInt64 :=
  if level = 0 then 0
  else (List.range (level.val - 1)).foldl (fun limit _ => limit * opts.levelSizeMultiplier)
    opts.l1MaxBytes

/-- The levels that may overflow, each with the next one. -/
def overflowLevels : List (Level × Level) := [(1, 2), (2, 3), (3, 4), (4, 5), (5, 6)]

/-- `DB::needs_compaction`. -/
def needsCompaction (opts : Options) (ver : Version) : Bool :=
  opts.compactionTrigger.toNat ≤ (ver.files 0).length ∨
    overflowLevels.any fun l => ver.levelBytes l.1 > maxLevelBytes opts l.1

/-! ## Picking -/

/-- `DB::CompactionJob`. -/
structure CompactionJob where
  outputLevel : Level := 0
  inputs : List FileMeta := []
  isBottommost : Bool := false
  deriving DecidableEq, Repr

/-- `largest_key < lo || smallest_key > hi`, negated. -/
def FileMeta.overlaps (fm : FileMeta) (lo hi : Bytes) : Bool :=
  ! (fm.largestKey < lo || fm.smallestKey > hi)

/-- One turn of the loop over L0: `range_min` and `range_max`, an empty one being unset. -/
def widenRange (range : Bytes × Bytes) (fm : FileMeta) : Bytes × Bytes :=
  (if range.1 = [] ∨ fm.smallestKey < range.1 then fm.smallestKey else range.1,
    if range.2 = [] ∨ fm.largestKey > range.2 then fm.largestKey else range.2)

/-- The key range of the files of L0. -/
def l0Range (files : List FileMeta) : Bytes × Bytes := files.foldl widenRange ([], [])

/-- The forced round: everything, to level 1, if there is something to merge. -/
def forcedJob (ver : Version) : CompactionJob :=
  if ver.allFiles.length ≥ 2 then ⟨1, ver.allFiles, true⟩ else ⟨0, ver.allFiles, false⟩

/-- The L0 round. -/
def l0Job (ver : Version) : CompactionJob :=
  let range := l0Range (ver.files 0)
  ⟨1, ver.files 0 ++ (ver.files 1).filter fun fm => fm.overlaps range.1 range.2,
    ver.maxPopulatedLevel ≤ 1 || ver.maxPopulatedLevel = 0⟩

/-- The file with the smallest number, the first of them. -/
def oldestFile (files : List FileMeta) : Option FileMeta :=
  files.foldl (fun pick fm =>
    match pick with
    | none => some fm
    | some p => if fm.number < p.number then some fm else some p) none

/-- The round that moves `pick` down to `next`. -/
def moveJob (ver : Version) (next : Level) (pick : FileMeta) : CompactionJob :=
  ⟨next, pick :: (ver.files next).filter fun fm => fm.overlaps pick.smallestKey pick.largestKey,
    ver.maxPopulatedLevel ≤ next⟩

/-- One turn of the loop over the overfull levels. -/
def overflowJob (opts : Options) (ver : Version) (level next : Level) : Option CompactionJob :=
  if ver.levelBytes level ≤ maxLevelBytes opts level then none
  else (oldestFile (ver.files level)).map (moveJob ver next)

/-- `DB::pick_compaction`. -/
def pickCompaction (opts : Options) (forceCompact : Bool) (ver : Version) : CompactionJob :=
  if forceCompact then forcedJob ver
  else if opts.compactionTrigger.toNat ≤ (ver.files 0).length then l0Job ver
  else (overflowLevels.findSome? fun l => overflowJob opts ver l.1 l.2).getD {}

theorem foldl_oldest_mem {files : List FileMeta} {pick : Option FileMeta} {p : FileMeta}
    (h : files.foldl (fun pick fm =>
      match pick with
      | none => some fm
      | some p => if fm.number < p.number then some fm else some p) pick = some p) :
    p ∈ files ∨ pick = some p := by
  induction files generalizing pick with
  | nil => exact Or.inr h
  | cons fm files ih =>
    rcases ih h with hmem | hp
    · exact Or.inl (List.mem_cons_of_mem fm hmem)
    · cases pick with
      | none => exact Or.inl (Option.some.inj hp ▸ List.mem_cons_self)
      | some q =>
        simp only at hp
        split at hp
        · exact Or.inl (Option.some.inj hp ▸ List.mem_cons_self)
        · exact Or.inr hp

theorem oldestFile_mem {files : List FileMeta} {p : FileMeta} (h : oldestFile files = some p) :
    p ∈ files :=
  (foldl_oldest_mem h).resolve_right (by simp)

/-- The rounds there are: forced, L0, an overfull level, or none. -/
theorem pickCompaction_cases (opts : Options) (forceCompact : Bool) (ver : Version) :
    (forceCompact = true ∧ pickCompaction opts forceCompact ver = forcedJob ver) ∨
    ((forceCompact = false ∧ opts.compactionTrigger.toNat ≤ (ver.files 0).length) ∧
      pickCompaction opts forceCompact ver = l0Job ver) ∨
    (∃ level next pick, (level, next) ∈ overflowLevels ∧ pick ∈ ver.files level ∧
      pickCompaction opts forceCompact ver = moveJob ver next pick) ∨
    pickCompaction opts forceCompact ver = {} := by
  unfold pickCompaction
  cases forceCompact with
  | true => exact Or.inl ⟨rfl, rfl⟩
  | false =>
    right
    rw [if_neg (by decide)]
    split
    · rename_i htrigger
      exact Or.inl ⟨⟨rfl, htrigger⟩, rfl⟩
    · right
      cases hj : overflowLevels.findSome? fun l => overflowJob opts ver l.1 l.2 with
      | none => exact Or.inr rfl
      | some job =>
        obtain ⟨⟨level, next⟩, hl, hjob⟩ := List.exists_of_findSome?_eq_some hj
        simp only [overflowJob] at hjob
        split at hjob
        · simp at hjob
        · obtain ⟨pick, hp, rfl⟩ := Option.map_eq_some_iff.1 hjob
          exact Or.inl ⟨level, next, pick, hl, oldestFile_mem hp, rfl⟩

/-! ## Commit -/

/-- The files of a level that are no inputs. -/
def CompactionJob.remaining (job : CompactionJob) (files : List FileMeta) : List FileMeta :=
  files.filter fun fm => fm.number ∉ job.inputs.map FileMeta.number

/-- `std::sort` by `smallest_key`. -/
def sortByKey (files : List FileMeta) : List FileMeta :=
  files.insertionSort fun a b => a.smallestKey ≤ b.smallestKey

/-- The version a round with the given outputs makes of the current one. -/
def commitVersion (ver : Version) (job : CompactionJob) (outputs : List FileMeta) : Version :=
  ⟨fun l =>
    if l = job.outputLevel then
      let files := job.remaining (ver.files l) ++ outputs
      if 1 ≤ l then sortByKey files else files
    else job.remaining (ver.files l)⟩

/-! ## The files of a version -/

@[simp] theorem Version.allFiles_empty : Version.empty.allFiles = [] := rfl

theorem Version.mem_allFiles {ver : Version} {fm : FileMeta} :
    fm ∈ ver.allFiles ↔ ∃ l, fm ∈ ver.files l := by
  simp [Version.allFiles, List.mem_flatMap]

/-- Adding files to one level adds them to the whole. -/
theorem flatMap_update_perm {α β : Type} {ls : List α} (hnd : ls.Nodup) {o : α} (ho : o ∈ ls)
    {f g : α → List β} {new : List β} (hne : ∀ l, l ≠ o → g l = f l)
    (heq : (g o).Perm (f o ++ new)) : (ls.flatMap g).Perm (ls.flatMap f ++ new) := by
  induction ls with
  | nil => simp at ho
  | cons l ls ih =>
    obtain ⟨hl, hnd'⟩ := List.nodup_cons.1 hnd
    rw [List.flatMap_cons, List.flatMap_cons]
    rcases List.mem_cons.1 ho with rfl | ho'
    · have hrest : ls.flatMap g = ls.flatMap f :=
        List.flatMap_congr fun x hx => hne x (by rintro rfl; exact hl hx)
      rw [hrest]
      refine (heq.append_right _).trans ?_
      rw [List.append_assoc, List.append_assoc]
      exact (List.perm_append_comm).append_left _
    · have hlo : l ≠ o := by
        rintro rfl
        exact hl ho'
      rw [hne l hlo, List.append_assoc]
      exact (ih hnd' ho').append_left _

theorem allFiles_pushL0 (ver : Version) (fm : FileMeta) :
    (ver.pushL0 fm).allFiles.Perm (ver.allFiles ++ [fm]) := by
  refine flatMap_update_perm (List.nodup_finRange _) (List.mem_finRange 0) (fun l hl => ?_) ?_
  · simp [Version.pushL0, hl]
  · simp [Version.pushL0]

theorem remaining_sublist (job : CompactionJob) (files : List FileMeta) :
    (job.remaining files).Sublist files := List.filter_sublist

theorem mem_remaining {job : CompactionJob} {files : List FileMeta} {fm : FileMeta} :
    fm ∈ job.remaining files ↔ fm ∈ files ∧ fm.number ∉ job.inputs.map FileMeta.number := by
  simp [CompactionJob.remaining]

theorem sortByKey_perm (files : List FileMeta) : (sortByKey files).Perm files :=
  List.perm_insertionSort _ _

theorem files_commit_of_ne {ver : Version} {job : CompactionJob} {outputs : List FileMeta}
    {l : Level} (h : l ≠ job.outputLevel) :
    (commitVersion ver job outputs).files l = job.remaining (ver.files l) := by
  simp [commitVersion, h]

theorem files_commit_perm (ver : Version) (job : CompactionJob) (outputs : List FileMeta) :
    ((commitVersion ver job outputs).files job.outputLevel).Perm
      (job.remaining (ver.files job.outputLevel) ++ outputs) := by
  simp only [commitVersion, if_true]
  split
  · exact sortByKey_perm _
  · exact List.Perm.refl _

theorem mem_files_commit {ver : Version} {job : CompactionJob} {outputs : List FileMeta}
    {l : Level} {fm : FileMeta} :
    fm ∈ (commitVersion ver job outputs).files l ↔
      (fm ∈ ver.files l ∧ fm.number ∉ job.inputs.map FileMeta.number) ∨
        (l = job.outputLevel ∧ fm ∈ outputs) := by
  by_cases h : l = job.outputLevel
  · subst h
    rw [(files_commit_perm ver job outputs).mem_iff, List.mem_append, mem_remaining]
    simp
  · rw [files_commit_of_ne h, mem_remaining]
    simp [h]

theorem allFiles_commit (ver : Version) (job : CompactionJob) (outputs : List FileMeta) :
    (commitVersion ver job outputs).allFiles.Perm (job.remaining ver.allFiles ++ outputs) := by
  have h : job.remaining ver.allFiles =
      (List.finRange kMaxLevels).flatMap fun l => job.remaining (ver.files l) := by
    simp only [Version.allFiles, CompactionJob.remaining, List.filter_flatMap]
  rw [h]
  exact flatMap_update_perm (List.nodup_finRange _) (List.mem_finRange job.outputLevel)
    (fun l hl => files_commit_of_ne hl) (files_commit_perm ver job outputs)

/-- Only live files are merged. -/
theorem pickCompaction_inputs (opts : Options) (forceCompact : Bool) (ver : Version) :
    ∀ fm ∈ (pickCompaction opts forceCompact ver).inputs, fm ∈ ver.allFiles := by
  intro fm hfm
  rcases pickCompaction_cases opts forceCompact ver with
    ⟨-, h⟩ | ⟨-, h⟩ | ⟨level, next, pick, -, hpick, h⟩ | h
  · rw [h, forcedJob] at hfm
    split at hfm <;> exact hfm
  · rw [h] at hfm
    rcases List.mem_append.1 hfm with hfm | hfm
    · exact Version.mem_allFiles.2 ⟨0, hfm⟩
    · exact Version.mem_allFiles.2 ⟨1, (List.mem_filter.1 hfm).1⟩
  · rw [h] at hfm
    rcases List.mem_cons.1 hfm with rfl | hfm
    · exact Version.mem_allFiles.2 ⟨level, hpick⟩
    · exact Version.mem_allFiles.2 ⟨next, (List.mem_filter.1 hfm).1⟩
  · rw [h] at hfm
    simp at hfm

end Keystone
