/-
  Whether a call of `DB::compact` returns.

  The call is alone with the compaction thread: no writes, no flushes, no second call. Every
  round merges the whole version, so the state between two rounds is described by the version
  alone (`ForcedRound`), and after the first round by the list of entries it kept
  (`Version.HoldsAt`), which further rounds write again and again.

  * `Version.stream`: the entries of a version in order, whatever the queue of the merge does.
  * `returns_of_round`, `never_returns`: from the rounds to the steps of both threads.
  * `compact_returns_iff`: the call returns exactly if there is nothing to do, or the merge keeps
    something and the level it goes to stays within its limit, or all of it is one file and L0
    may have one.
-/
import Keystone.Progress
import Keystone.TableMeta

namespace Keystone

/-! ## The entries of a version -/

/-- All entries in the order of a merge. -/
def Version.stream (ver : Version) : List Entry :=
  (ver.allFiles.flatMap FileMeta.contents).insertionSort Entry.BeforeEq

/-- The files are as written, and equal numbers of a key are the same entry. -/
structure Version.Sound (ver : Version) : Prop where
  ok : ∀ fm ∈ ver.allFiles, fm.Ok
  unique : UniqueSeqs (ver.allFiles.flatMap FileMeta.contents)

theorem Version.stream_perm (ver : Version) :
    ver.stream.Perm (ver.allFiles.flatMap FileMeta.contents) := List.perm_insertionSort _ _

theorem Version.stream_sorted (ver : Version) : SortedLe ver.stream :=
  List.pairwise_insertionSort _ _

theorem Version.Sound.unique_stream {ver : Version} (h : ver.Sound) : UniqueSeqs ver.stream :=
  h.unique.subset fun _ he => ver.stream_perm.mem_iff.1 he

theorem Version.Sound.storable {ver : Version} (h : ver.Sound) : ∀ e ∈ ver.stream, e.Storable := by
  intro e he
  obtain ⟨fm, hfm, hmem⟩ := List.mem_flatMap.1 (ver.stream_perm.mem_iff.1 he)
  exact (h.ok fm hfm).storable e hmem

/-- Any sorted rearrangement of the entries is the stream. -/
theorem Version.Sound.stream_eq {ver : Version} (h : ver.Sound) {es : List Entry}
    (hs : SortedLe es) (hp : es.Perm (ver.allFiles.flatMap FileMeta.contents)) : ver.stream = es :=
  SortedLe.eq_of_perm h.unique_stream ver.stream_sorted hs (ver.stream_perm.trans hp.symm)

theorem Version.Sound.merge_eq {ver : Version} (h : ver.Sound) (pq : SourceQueue) :
    mergeVersions pq (ver.allFiles.map FileMeta.contents) = ver.stream := by
  refine (h.stream_eq (sorted_roundStream h.ok) ?_).symm
  rw [List.flatMap_def]
  exact mergeVersions_perm pq _

/-! ## Forced rounds -/

theorem forcedJob_inputs (ver : Version) : (forcedJob ver).inputs = ver.allFiles := by
  unfold forcedJob
  split <;> rfl

/-- What a forced round over `ver` keeps, with the snapshots of `db`. -/
def DB.forcedKept (db : DB) (ver : Version) : List Entry :=
  keptFrom db.oldestLiveSnapshot (forcedJob ver).isBottommost [] ver.stream

/-- The files it makes of them. -/
def DB.forcedChunks (db : DB) (ver : Version) : List (List Entry) :=
  splitFiles db.opts.targetFileSize.toNat [] 0 (db.forcedKept ver)

theorem flatten_forcedChunks (db : DB) (ver : Version) :
    (db.forcedChunks ver).flatten = db.forcedKept ver := by
  rw [DB.forcedChunks, flatten_splitFiles, List.nil_append]

theorem forcedChunks_eq {ver : Version} (h : ver.Sound) (db : DB) (pq : SourceQueue) :
    mergeOutputs db.oldestLiveSnapshot (forcedJob ver).isBottommost db.opts.targetFileSize.toNat
      (mergeVersions pq (ver.allFiles.map FileMeta.contents)) = db.forcedChunks ver := by
  rw [mergeOutputs_eq, h.merge_eq, retain_start_eq_keptFrom ver.stream_sorted]
  rfl

/-- The files can be written and read. -/
def DB.ChunksFit (db : DB) (ver : Version) : Prop := ∀ es ∈ db.forcedChunks ver, TableFits es

instance (db : DB) (ver : Version) : Decidable (db.ChunksFit ver) :=
  inferInstanceAs (Decidable (∀ es ∈ db.forcedChunks ver, TableFits es))

theorem chunkOk_forcedChunks {ver : Version} (h : ver.Sound) (db : DB) :
    ∀ es ∈ db.forcedChunks ver, ChunkOk es := by
  rw [← forcedChunks_eq h db plainQueue]
  refine mergeOutputs_chunks ?_ ?_ <;> rw [h.merge_eq]
  · exact ver.stream_sorted
  · exact h.storable

theorem DB.ChunksFit.congr {db : DB} {ver ver' : Version} (h : db.ChunksFit ver)
    (hsame : db.forcedChunks ver' = db.forcedChunks ver) : db.ChunksFit ver' := by
  rwa [DB.ChunksFit, hsame]

/-- What is read of them. -/
theorem contentsOf_forcedChunks {ver : Version} (h : ver.Sound) {db : DB} (hfit : db.ChunksFit ver) :
    (db.forcedChunks ver).map contentsOf = db.forcedChunks ver := by
  rw [List.map_congr_left fun es hes =>
    contentsOf_eq (chunkOk_forcedChunks h db es hes).storable (hfit es hes).blocks, List.map_id']

/-- A forced round over `ver` leaves `ver'`. -/
def ForcedRound (db : DB) (ver ver' : Version) : Prop :=
  ∃ outputs : List FileMeta, outputs.map FileMeta.contents = db.forcedChunks ver ∧
    (∀ fm ∈ outputs, fm.Ok) ∧
    ver' = if outputs = [] then ver else commitVersion ver (forcedJob ver) outputs

/-! ## Versions with one populated level -/

/-- The level `l` has the files with the given entries, and the others have none. -/
structure Version.HoldsAt (l : Level) (chunks : List (List Entry)) (ver : Version) : Prop where
  files : ((ver.files l).map FileMeta.contents).Perm chunks
  empty : ∀ l', l' ≠ l → ver.files l' = []
  ok : ∀ fm ∈ ver.files l, fm.Ok

namespace Version.HoldsAt

variable {l : Level} {chunks : List (List Entry)} {ver : Version}

theorem allFiles (h : ver.HoldsAt l chunks) : ver.allFiles.Perm (ver.files l) := by
  have hnil : (List.finRange kMaxLevels).flatMap (fun _ => ([] : List FileMeta)) = [] := by simp
  have hperm := flatMap_update_perm (List.nodup_finRange _) (List.mem_finRange l) h.empty
    (List.Perm.refl ([] ++ ver.files l))
  rwa [hnil] at hperm

theorem entries (h : ver.HoldsAt l chunks) :
    (ver.allFiles.flatMap FileMeta.contents).Perm chunks.flatten := by
  refine (h.allFiles.flatMap fun _ _ => List.Perm.refl _).trans ?_
  rw [List.flatMap_def]
  exact h.files.flatten

theorem length (h : ver.HoldsAt l chunks) : ver.allFiles.length = chunks.length := by
  rw [h.allFiles.length_eq, ← h.files.length_eq, List.length_map]

theorem sound (h : ver.HoldsAt l chunks) (hu : UniqueSeqs chunks.flatten) : ver.Sound where
  ok fm hfm := h.ok fm (h.allFiles.mem_iff.1 hfm)
  unique := hu.subset fun _ he => h.entries.mem_iff.1 he

theorem stream (h : ver.HoldsAt l chunks) (hu : UniqueSeqs chunks.flatten)
    (hs : SortedLe chunks.flatten) : ver.stream = chunks.flatten :=
  (h.sound hu).stream_eq hs h.entries.symm

theorem count (h : ver.HoldsAt l chunks) : entryCountOf (ver.files l) = chunks.flatten.length := by
  rw [entryCountOf_eq_flatten, h.files.flatten.length_eq]

end Version.HoldsAt

/-- A round that keeps something leaves it in its output level, and nothing else. -/
theorem ForcedRound.holdsAt {db : DB} {ver ver' : Version} (h : ForcedRound db ver ver')
    (hkept : db.forcedKept ver ≠ []) :
    ver'.HoldsAt (forcedJob ver).outputLevel (db.forcedChunks ver) := by
  obtain ⟨outputs, hout, hok, rfl⟩ := h
  have hne : outputs ≠ [] := by
    rintro rfl
    rw [← flatten_forcedChunks, ← hout] at hkept
    exact hkept rfl
  have hnone : ∀ l, (forcedJob ver).remaining (ver.files l) = [] := fun l => by
    refine List.filter_eq_nil_iff.2 fun fm hfm => ?_
    have hmem : fm.number ∈ (forcedJob ver).inputs.map FileMeta.number := by
      rw [forcedJob_inputs]
      exact List.mem_map_of_mem (Version.mem_allFiles.2 ⟨l, hfm⟩)
    simpa using hmem
  have hperm : ((commitVersion ver (forcedJob ver) outputs).files
      (forcedJob ver).outputLevel).Perm outputs := by
    have := files_commit_perm ver (forcedJob ver) outputs
    rwa [hnone, List.nil_append] at this
  rw [if_neg hne]
  refine ⟨?_, fun l hl => ?_, fun fm hfm => hok fm (hperm.mem_iff.1 hfm)⟩
  · rw [← hout]
    exact hperm.map _
  · rw [files_commit_of_ne hl, hnone]

theorem ForcedRound.eq_self {db : DB} {ver ver' : Version} (h : ForcedRound db ver ver')
    (hkept : db.forcedKept ver = []) : ver' = ver := by
  obtain ⟨outputs, hout, -, rfl⟩ := h
  have hnil : outputs = [] := by
    rw [DB.forcedChunks, hkept] at hout
    exact List.map_eq_nil_iff.1 hout
  rw [if_pos hnil]

/-! ## The trigger on such versions -/

theorem foldl_levelBytes {files : List FileMeta} (hok : ∀ fm ∈ files, fm.Ok) (total : UInt64) :
    files.foldl (fun total fm => total + fm.table.entryCount * 64) total =
      total + UInt64.ofNat (64 * entryCountOf files) := by
  induction files generalizing total with
  | nil => simp [entryCountOf, countBy]
  | cons fm files ih =>
    have hcount : fm.table.entryCount = UInt64.ofNat fm.contents.length := by
      rw [← (hok fm List.mem_cons_self).exact.count, UInt64.ofNat_toNat]
    rw [List.foldl_cons, ih fun f hf => hok f (List.mem_cons_of_mem fm hf), hcount]
    have h64 : UInt64.ofNat 64 = 64 := rfl
    simp only [entryCountOf, countBy, List.map_cons, List.sum_cons, Nat.mul_add, UInt64.ofNat_add,
      UInt64.ofNat_mul, h64]
    rw [UInt64.add_assoc, UInt64.mul_comm (UInt64.ofNat fm.contents.length)]

theorem levelBytes_eq {ver : Version} {l : Level} (hok : ∀ fm ∈ ver.files l, fm.Ok) :
    ver.levelBytes l = UInt64.ofNat (64 * entryCountOf (ver.files l)) := by
  rw [Version.levelBytes, foldl_levelBytes hok, zero_add]

theorem levelBytes_of_nil {ver : Version} {l : Level} (h : ver.files l = []) :
    ver.levelBytes l = 0 := by
  rw [Version.levelBytes, h]
  rfl

/-- Only the populated level can be over its limit. -/
theorem Version.HoldsAt.overflows_iff {l : Level} {chunks : List (List Entry)} {ver : Version}
    (h : ver.HoldsAt l chunks) (opts : Options) :
    (overflowLevels.any fun p => ver.levelBytes p.1 > maxLevelBytes opts p.1) = true ↔
      (∃ next, (l, next) ∈ overflowLevels) ∧
        maxLevelBytes opts l < UInt64.ofNat (64 * chunks.flatten.length) := by
  have hbytes : ver.levelBytes l = UInt64.ofNat (64 * chunks.flatten.length) := by
    rw [levelBytes_eq h.ok, h.count]
  rw [List.any_eq_true]
  constructor
  · rintro ⟨⟨l', next⟩, hl', hover⟩
    have hover : maxLevelBytes opts l' < ver.levelBytes l' := of_decide_eq_true hover
    obtain rfl : l' = l := by
      by_contra hne
      rw [levelBytes_of_nil (h.empty l' hne)] at hover
      exact absurd hover (not_lt.2 UInt64.zero_le)
    exact ⟨⟨next, hl'⟩, hbytes ▸ hover⟩
  · rintro ⟨⟨next, hl⟩, hover⟩
    exact ⟨(l, next), hl, decide_eq_true (hbytes ▸ hover)⟩

theorem Version.HoldsAt.needs_one {chunks : List (List Entry)} {ver : Version}
    (h : ver.HoldsAt 1 chunks) (opts : Options) : needsCompaction opts ver = true ↔
      opts.compactionTrigger = 0 ∨ opts.l1MaxBytes < UInt64.ofNat (64 * chunks.flatten.length) := by
  have hmax : maxLevelBytes opts 1 = opts.l1MaxBytes := rfl
  rw [needsCompaction, decide_eq_true_iff, h.overflows_iff opts, hmax,
    and_iff_right ⟨2, by decide⟩, h.empty 0 (by decide), List.length_nil, Nat.le_zero]
  exact or_congr_left (by rw [← UInt64.toNat_inj]; rfl)

theorem Version.HoldsAt.needs_zero {chunks : List (List Entry)} {ver : Version}
    (h : ver.HoldsAt 0 chunks) (opts : Options) : needsCompaction opts ver = true ↔
      opts.compactionTrigger.toNat ≤ chunks.length := by
  rw [needsCompaction, decide_eq_true_iff, h.overflows_iff opts, ← h.files.length_eq,
    List.length_map]
  exact or_iff_left fun hover => absurd hover.1 (by decide)

theorem Version.HoldsAt.done_one {chunks : List (List Entry)} {ver : Version}
    (h : ver.HoldsAt 1 chunks) : DB.compactDone ver = true := by
  have hpop : ((List.finRange kMaxLevels).filter fun l => 1 ≤ l ∧ ver.files l ≠ []).Sublist
      ((List.finRange kMaxLevels).filter fun l => l = 1) := by
    refine List.monotone_filter_right _ fun l hl => ?_
    rw [decide_eq_true_iff] at hl ⊢
    by_contra hne
    exact hl.2 (h.empty l hne)
  have hone : ((List.finRange kMaxLevels).filter fun l => l = 1).length = 1 := by decide
  rw [DB.compactDone, Bool.or_eq_true, Bool.and_eq_true]
  exact Or.inr ⟨decide_eq_true (h.empty 0 (by decide)),
    decide_eq_true (hone ▸ hpop.length_le)⟩

theorem Version.HoldsAt.done_of_single {l : Level} {chunks : List (List Entry)} {ver : Version}
    (h : ver.HoldsAt l chunks) (hlen : chunks.length ≤ 1) : DB.compactDone ver = true := by
  simp [DB.compactDone, Version.totalFileCount, h.length, hlen]

/-! ## The two threads -/

/-- A step of the waiting call or of the compaction thread. -/
def Event.OfCompaction : Event → Prop
  | .compactWake => True
  | .pick _ => True
  | .startWriter => True
  | .finishWriter => True
  | .commit => True
  | .unlink _ => True
  | _ => False

/-- One call of `compact` is in its loop, with the options and the snapshots of `base`. -/
structure DB.InCall (base : DB) (ver : Version) (db : DB) : Prop where
  waiting : db.waiting = 1
  force : db.forceCompact = true
  opts : db.opts = base.opts
  snaps : db.liveSnapshots = base.liveSnapshots
  version : db.version = ver

/-- Between two rounds. -/
structure DB.BetweenRounds (base : DB) (ver : Version) (next : Nat) (db : DB) : Prop
    extends DB.InCall base ver db where
  job : db.job = none
  next : db.nextSst = next

/-- During a round that began with the file number `next`. -/
structure DB.Merging (base : DB) (ver : Version) (next : Nat) (db : DB) : Prop
    extends DB.InCall base ver db where
  pending : db.compactionPending = false
  round : ∃ j, db.job = some j ∧ j.job = forcedJob ver ∧ j.written = base.forcedChunks ver ∧
    (∀ es ∈ Job.pieces (some j), es ∈ base.forcedChunks ver) ∧ (∀ fm ∈ j.outputs, fm.Ok) ∧
    db.nextSst + j.chunks.length = next + (base.forcedChunks ver).length

/-- The steps until the commit of the next round, at most. -/
def DB.stepsLeft (chunks : Nat) (db : DB) : Nat :=
  db.doomed.length +
    match db.job with
    | none => 2 * chunks + if db.compactionPending then 1 else 2
    | some j => 2 * j.chunks.length + if j.writer.isSome then 1 else 0

section Threads

variable {base db db' : DB} {ver ver' : Version} {next : Nat} {ev : Event}

theorem DB.InCall.oldest (h : DB.InCall base ver db) :
    db.oldestLiveSnapshot = base.oldestLiveSnapshot := by
  rw [DB.oldestLiveSnapshot, h.snaps]
  rfl

theorem doomed_unlink {number : Nat} (h : db.unlink number = some db') :
    db'.doomed.length < db.doomed.length := by
  obtain ⟨hmem, rfl⟩ := DB.unlink_inv h
  exact List.length_filter_lt_length_iff_exists.2 ⟨number, hmem, by simp⟩

/-- **One step between two rounds**: the call returns, it asks for a round, or the round
    begins. -/
theorem DB.BetweenRounds.step (h : DB.BetweenRounds base ver next db) (hs : ver.Sound)
    (hfit : base.ChunksFit ver) (hne : ver.allFiles ≠ [])
    (hev : ev.OfCompaction) (hstep : db.step ev = some db') :
    (db.compactionPending = false ∧ DB.compactDone ver = true ∧ db'.waiting = 0) ∨
    (DB.BetweenRounds base ver next db' ∧ (db'.compactionPending = db.compactionPending ∨
        db'.compactionPending = true ∧ DB.compactDone ver = false) ∨
      db.compactionPending = true ∧ DB.Merging base ver next db') ∧
      db'.stepsLeft (base.forcedChunks ver).length < db.stepsLeft (base.forcedChunks ver).length := by
  have hj := h.job
  cases ev with
  | compactWake =>
    obtain ⟨-, hpend, -, rfl⟩ := DB.compactWake_inv hstep
    rcases DB.compactTurn_inv db with ⟨hd, he⟩ | ⟨hd, he⟩ <;> rw [h.version] at hd <;> rw [he]
    · exact Or.inl ⟨hpend, hd, by simp [h.waiting]⟩
    · refine Or.inr ⟨Or.inl ⟨⟨⟨h.waiting, h.force, h.opts, h.snaps, h.version⟩, h.job, h.next⟩,
        Or.inr ⟨by simp [hj], hd⟩⟩, ?_⟩
      simp [DB.stepsLeft, hj, hpend]
  | pick pq =>
    obtain ⟨hpend, -, hcases⟩ := DB.pick_shape hstep
    have hjob : pickCompaction db.opts db.forceCompact db.version = forcedJob ver := by
      rw [h.force, h.version]
      rfl
    rw [hjob, forcedJob_inputs] at hcases
    obtain ⟨hnil, -⟩ | ⟨-, sources, hread, rfl⟩ := hcases
    · exact absurd hnil hne
    · obtain ⟨rfl, -⟩ := readInputs_inv hread
      have hchunks : mergeOutputs db.oldestLiveSnapshot (forcedJob ver).isBottommost
          db.opts.targetFileSize.toNat (mergeVersions pq (ver.allFiles.map FileMeta.contents)) =
          base.forcedChunks ver := by
        rw [h.oldest, h.opts, forcedChunks_eq hs]
      rw [hchunks]
      refine Or.inr ⟨Or.inr ⟨hpend, ⟨h.waiting, h.force, h.opts, h.snaps, h.version⟩, rfl, _, rfl,
        rfl, ?_, fun es hes => hes, by simp, by rw [h.next]⟩, ?_⟩
      · rw [written_fresh, contentsOf_forcedChunks hs hfit]
      · simp [DB.stepsLeft, hj, hpend]
  | startWriter => exact nomatch (DB.no_job hj).1.symm.trans hstep
  | finishWriter => exact nomatch (DB.no_job hj).2.1.symm.trans hstep
  | commit => exact nomatch (DB.no_job hj).2.2.symm.trans hstep
  | unlink number =>
    have hless := doomed_unlink hstep
    obtain ⟨-, rfl⟩ := DB.unlink_inv hstep
    exact Or.inr ⟨Or.inl ⟨⟨⟨h.waiting, h.force, h.opts, h.snaps, h.version⟩, h.job, h.next⟩,
      Or.inl rfl⟩, Nat.add_lt_add_right hless _⟩
  | _ => exact hev.elim

/-- **One step of a round**: the writer goes on, or the commit ends it. -/
theorem DB.Merging.step (h : DB.Merging base ver next db) (hs : ver.Sound)
    (hfit : base.ChunksFit ver) (hev : ev.OfCompaction) (hstep : db.step ev = some db') :
    (∃ ver', ForcedRound base ver ver' ∧
      DB.BetweenRounds base ver' (next + (base.forcedChunks ver).length) db' ∧
      db'.compactionPending = needsCompaction base.opts ver') ∨
    DB.Merging base ver next db' ∧
      db'.stepsLeft (base.forcedChunks ver).length < db.stepsLeft (base.forcedChunks ver).length := by
  obtain ⟨j, hj, hjob, hwritten, hpieces, hok, hnext⟩ := h.round
  have hcall : ∀ {s : DB}, s.waiting = db.waiting → s.forceCompact = db.forceCompact →
      s.opts = db.opts → s.liveSnapshots = db.liveSnapshots → s.version = db.version →
      DB.InCall base ver s := fun h1 h2 h3 h4 h5 =>
    ⟨h1.trans h.waiting, h2.trans h.force, h3.trans h.opts, h4.trans h.snaps, h5.trans h.version⟩
  cases ev with
  | compactWake =>
    obtain ⟨-, -, hnone, -⟩ := DB.compactWake_inv hstep
    rw [hj] at hnone
    cases hnone
  | pick pq =>
    obtain ⟨-, hnone, -⟩ := DB.pick_shape hstep
    rw [hj] at hnone
    cases hnone
  | startWriter =>
    obtain ⟨job, chunk, chunks, outputs, hj', -, rfl⟩ := DB.startWriter_inv hstep
    obtain rfl := Option.some.inj (hj.symm.trans hj')
    refine Or.inr ⟨⟨hcall rfl rfl rfl rfl rfl, h.pending, _, rfl, hjob, hwritten, hpieces, hok, ?_⟩, ?_⟩
    · simp only [List.length_cons] at hnext ⊢
      omega
    · simp only [DB.stepsLeft, hj, List.length_cons, Option.isSome]
      simp
      omega
  | finishWriter =>
    obtain ⟨job, chunks, number, chunk, outputs, file, fm, hj', hbuild, rfl⟩ :=
      DB.finishWriter_shape hstep
    obtain rfl := Option.some.inj (hj.symm.trans hj')
    have hmem := hpieces chunk (by simp [Job.pieces])
    have hchunk := chunkOk_forcedChunks hs base chunk hmem
    obtain ⟨-, -, -, hcont, hfm⟩ :=
      buildTable_spec hchunk.ne_nil hchunk.sorted hchunk.storable (hfit chunk hmem).blocks hbuild
    refine Or.inr ⟨⟨hcall rfl rfl rfl rfl rfl, h.pending, _, rfl, hjob, ?_, fun es hes => ?_,
      fun f hf => ?_, hnext⟩, ?_⟩
    · rw [← hwritten]
      simp [Job.written, Job.pieces, hcont, contentsOf_eq hchunk.storable (hfit chunk hmem).blocks]
    · exact hpieces es (List.mem_append_right _ hes)
    · rcases List.mem_append.1 hf with hf | hf
      · exact hok f hf
      · exact List.mem_singleton.1 hf ▸ hfm
    · simp [DB.stepsLeft, hj]
  | commit =>
    obtain ⟨job, outputs, hj', hcases⟩ := DB.commit_inv hstep
    obtain rfl := Option.some.inj (hj.symm.trans hj')
    have hout : outputs.map FileMeta.contents = base.forcedChunks ver := by
      rw [← hwritten]
      simp [Job.written, Job.pieces]
    have hround : ForcedRound base ver
        (if outputs = [] then ver else commitVersion ver (forcedJob ver) outputs) :=
      ⟨outputs, hout, hok, rfl⟩
    obtain rfl : job = forcedJob ver := hjob
    refine Or.inl ⟨_, hround, ?_⟩
    rcases hcases with ⟨ho, rfl⟩ | ⟨ho, rfl⟩
    · rw [if_pos ho]
      refine ⟨⟨hcall rfl rfl rfl rfl rfl, rfl, hnext⟩, ?_⟩
      simp only [h.pending, h.opts, h.version, Bool.false_or]
    · rw [if_neg ho]
      refine ⟨⟨⟨h.waiting, h.force, h.opts, h.snaps, ?_⟩, rfl, hnext⟩, ?_⟩
      · simp only [h.version]
      · simp only [h.pending, h.opts, h.version, Bool.false_or]
  | unlink number =>
    have hless := doomed_unlink hstep
    obtain ⟨-, rfl⟩ := DB.unlink_inv hstep
    exact Or.inr ⟨⟨hcall rfl rfl rfl rfl rfl, h.pending, j, hj, hjob, hwritten, hpieces, hok, hnext⟩,
      Nat.add_lt_add_right hless _⟩
  | _ => exact hev.elim

/-! ## From rounds to runs -/

/-- Between two rounds one of the threads can go on. -/
theorem DB.BetweenRounds.can_step (h : DB.BetweenRounds base ver next db) (hs : ver.Sound) :
    ∃ ev : Event, ev.OfCompaction ∧ (db.step ev).isSome := by
  have hj : db.job.isNone = true := by rw [h.job]; rfl
  by_cases hpend : db.compactionPending = true
  · have hread : DB.readInputs (pickCompaction db.opts db.forceCompact db.version).inputs =
        .ok (ver.allFiles.map FileMeta.contents) := by
      rw [h.force, h.version, ← readInputs_eq hs.ok, ← forcedJob_inputs]
      rfl
    refine ⟨.pick plainQueue, trivial, ?_⟩
    by_cases hnil : (pickCompaction db.opts db.forceCompact db.version).inputs = [] <;>
      simp [DB.step, DB.pick, DB.pickWith, hpend, hj, hread, hnil]
  · refine ⟨.compactWake, trivial, ?_⟩
    simp [DB.step, DB.compactWake, h.waiting, hpend, hj]

/-- A round goes on as long as there are numbers and its files can be written. -/
theorem DB.Merging.can_step (h : DB.Merging base ver next db) (hfit : base.ChunksFit ver)
    (hnum : next + (base.forcedChunks ver).length ≤ 2 ^ 31 - 1) :
    ∃ ev : Event, ev.OfCompaction ∧ (db.step ev).isSome := by
  obtain ⟨⟨job, chunks, writer, outputs⟩, hj, -, -, hpieces, -, hnext⟩ := h.round
  match writer, chunks with
  | some (number, chunk), chunks =>
    have hfits := hfit chunk (hpieces chunk (by simp [Job.pieces]))
    have hbuild := (@buildTable_iff number job.outputLevel chunk _ _).2
      ⟨hfits.file, hfits.toOpens, rfl, rfl⟩
    exact ⟨.finishWriter, trivial, by simp [DB.step, DB.finishWriter, hj, hbuild]⟩
  | none, chunk :: chunks =>
    have hlt : db.nextSst < 2 ^ 31 - 1 := by
      simp only [List.length_cons] at hnext
      omega
    have halloc : db.allocSst = some (db.nextSst, { db with nextSst := db.nextSst + 1 }) :=
      if_pos hlt
    exact ⟨.startWriter, trivial, by simp [DB.step, DB.startWriter, hj, halloc]⟩
  | none, [] =>
    refine ⟨.commit, trivial, ?_⟩
    by_cases ho : outputs = [] <;> simp [DB.step, DB.commit, hj, ho]

/-- Every run of the two threads comes to the return of the call. -/
def DB.Returns (db : DB) : Prop :=
  Steps.Inevitable DB.step Event.OfCompaction (fun s => s.waiting = 0) db

/-- The call returns when it wakes up and finds its condition. -/
theorem returns_of_done (hs : ver.Sound) (hfit : base.ChunksFit ver) (hne : ver.allFiles ≠ [])
    (h : DB.BetweenRounds base ver next db)
    (hpend : db.compactionPending = false) (hd : DB.compactDone ver = true) : db.Returns := by
  refine Steps.inevitable_of_measure (I := fun s => DB.BetweenRounds base ver next s ∧
    s.compactionPending = false) (DB.stepsLeft (base.forcedChunks ver).length) ?_ ?_ ⟨h, hpend⟩
  · rintro s ⟨hI, -⟩
    obtain ⟨ev, hev, hsome⟩ := hI.can_step hs
    obtain ⟨s', hs'⟩ := Option.isSome_iff_exists.1 hsome
    exact ⟨ev, s', hev, hs'⟩
  · rintro s ev s' ⟨hI, hp⟩ hev hstep
    rcases hI.step hs hfit hne hev hstep with ⟨-, -, hw⟩ | ⟨⟨hI', hp' | ⟨-, hnot⟩⟩ | ⟨hp', -⟩, hlt⟩
    · exact Or.inl hw
    · exact Or.inr ⟨⟨hI', hp'.trans hp⟩, hlt⟩
    · exact absurd (hd.symm.trans hnot) (by decide)
    · exact absurd (hp.symm.trans hp') (by decide)

/-- A round is done, if it has to be, and what follows starts from one of its results. -/
theorem returns_of_round (hs : ver.Sound) (hfit : base.ChunksFit ver) (hne : ver.allFiles ≠ [])
    (hnum : next + (base.forcedChunks ver).length ≤ 2 ^ 31 - 1) (h : DB.BetweenRounds base ver next db)
    (hpend : db.compactionPending = true)
    (hthen : ∀ ver' db', ForcedRound base ver ver' →
      DB.BetweenRounds base ver' (next + (base.forcedChunks ver).length) db' →
      db'.compactionPending = needsCompaction base.opts ver' → db'.Returns) : db.Returns := by
  let Committed (s : DB) : Prop := ∃ ver', ForcedRound base ver ver' ∧
    DB.BetweenRounds base ver' (next + (base.forcedChunks ver).length) s ∧
    s.compactionPending = needsCompaction base.opts ver'
  have hcommit : Steps.Inevitable DB.step Event.OfCompaction Committed db := by
    refine Steps.inevitable_of_measure (I := fun s => DB.BetweenRounds base ver next s ∧
      s.compactionPending = true ∨ DB.Merging base ver next s)
      (DB.stepsLeft (base.forcedChunks ver).length) ?_ ?_ (Or.inl ⟨h, hpend⟩)
    · intro s hI
      obtain ⟨ev, hev, hsome⟩ := hI.elim (fun hI => hI.1.can_step hs)
        fun hI => hI.can_step hfit hnum
      obtain ⟨s', hs'⟩ := Option.isSome_iff_exists.1 hsome
      exact ⟨ev, s', hev, hs'⟩
    · rintro s ev s' (⟨hI, hp⟩ | hI) hev hstep
      · rcases hI.step hs hfit hne hev hstep with ⟨hp', -⟩ | ⟨⟨hI', hp' | ⟨hp', -⟩⟩ | ⟨-, hI'⟩, hlt⟩
        · exact absurd (hp.symm.trans hp') (by decide)
        · exact Or.inr ⟨Or.inl ⟨hI', hp'.trans hp⟩, hlt⟩
        · exact Or.inr ⟨Or.inl ⟨hI', hp'⟩, hlt⟩
        · exact Or.inr ⟨Or.inr hI', hlt⟩
      · rcases hI.step hs hfit hev hstep with hdone | ⟨hI', hlt⟩
        · exact Or.inl hdone
        · exact Or.inr ⟨Or.inr hI', hlt⟩
  exact hcommit.trans fun s ⟨ver', hround, hidle, hp⟩ => hthen ver' s hround hidle hp

/-- If every round leads from one version of `C` to another, and asks for the next round or does
    not meet the condition of the call, the call never returns. -/
theorem never_returns {C : Version → Prop} 
    (hC : ∀ ver, C ver → ver.Sound ∧ base.ChunksFit ver ∧ ver.allFiles ≠ [])
    (hround : ∀ ver ver', C ver → ForcedRound base ver ver' →
      C ver' ∧ (needsCompaction base.opts ver' = true ∨ DB.compactDone ver' = false))
    (hver : C ver) (h : DB.BetweenRounds base ver next db) (hpend : db.compactionPending = true) :
    ¬ db.Returns := by
  refine Steps.not_inevitable (I := fun s => ∃ ver next, C ver ∧ (DB.BetweenRounds base ver next s ∧
    (s.compactionPending = true ∨ DB.compactDone ver = false) ∨ DB.Merging base ver next s))
    ?_ ?_ ⟨ver, next, hver, Or.inl ⟨h, Or.inl hpend⟩⟩
  · rintro s ⟨ver, next, -, ⟨hI, -⟩ | hI⟩ hw <;> exact absurd (hI.waiting.symm.trans hw) (by decide)
  · rintro s ev s' ⟨ver, next, hver, ⟨hI, hgo⟩ | hI⟩ hev hstep
    · obtain ⟨hs, hfit, hne⟩ := hC ver hver
      rcases hI.step hs hfit hne hev hstep with
        ⟨hp, hd, -⟩ | ⟨⟨hI', hp | ⟨hp, -⟩⟩ | ⟨-, hI'⟩, -⟩
      · rcases hgo with hgo | hgo
        · exact absurd (hp.symm.trans hgo) (by decide)
        · exact absurd (hd.symm.trans hgo) (by decide)
      · exact ⟨ver, next, hver, Or.inl ⟨hI', hp ▸ hgo⟩⟩
      · exact ⟨ver, next, hver, Or.inl ⟨hI', Or.inl hp⟩⟩
      · exact ⟨ver, next, hver, Or.inr hI'⟩
    · rcases hI.step (hC ver hver).1 (hC ver hver).2.1 hev hstep with ⟨ver', hr, hI', hp⟩ | ⟨hI', -⟩
      · obtain ⟨hver', hgo⟩ := hround ver ver' hver hr
        exact ⟨ver', _, hver', Or.inl ⟨hI', hp ▸ hgo⟩⟩
      · exact ⟨ver, next, hver, Or.inr hI'⟩

end Threads

/-! ## The rounds of a call -/

section Rounds

variable {db : DB} {ver ver' : Version}

theorem forcedJob_of_two (h : 2 ≤ ver.allFiles.length) :
    (forcedJob ver).outputLevel = 1 ∧ (forcedJob ver).isBottommost = true := by
  rw [forcedJob, if_pos h]
  exact ⟨rfl, rfl⟩

theorem forcedJob_of_one (h : ver.allFiles.length < 2) : (forcedJob ver).outputLevel = 0 := by
  rw [forcedJob, if_neg (not_le.2 h)]

theorem unique_forcedKept (hs : ver.Sound) (db : DB) : UniqueSeqs (db.forcedKept ver) :=
  hs.unique_stream.subset fun _ he => (keptFrom_sublist [] _).subset he

theorem sorted_forcedKept (db : DB) (ver : Version) : SortedLe (db.forcedKept ver) :=
  List.Pairwise.sublist (keptFrom_sublist [] _) ver.stream_sorted

/-- A round over what a bottommost round left makes the same files again. -/
theorem Version.HoldsAt.again {l : Level} (hs : ver.Sound)
    (hbottom : (forcedJob ver).isBottommost = true) (h : ver'.HoldsAt l (db.forcedChunks ver)) :
    ver'.Sound ∧ db.forcedChunks ver' = db.forcedChunks ver := by
  have hu : UniqueSeqs (db.forcedChunks ver).flatten :=
    (flatten_forcedChunks db ver).symm ▸ unique_forcedKept hs db
  have hsorted : SortedLe (db.forcedChunks ver).flatten :=
    (flatten_forcedChunks db ver).symm ▸ sorted_forcedKept db ver
  have hkept : db.forcedKept ver' = db.forcedKept ver := by
    rw [DB.forcedKept, h.stream hu hsorted, flatten_forcedChunks, DB.forcedKept, hbottom,
      keptFrom_bottommost]
  exact ⟨h.sound hu, by rw [DB.forcedChunks, hkept]; rfl⟩

/-- And leaves them in the level that their number gives. -/
theorem Version.HoldsAt.round {l : Level} {ver'' : Version} (hs : ver.Sound)
    (hbottom : (forcedJob ver).isBottommost = true) (hkept : db.forcedKept ver ≠ [])
    (h : ver'.HoldsAt l (db.forcedChunks ver)) (hr : ForcedRound db ver' ver'') :
    ver''.HoldsAt (if 2 ≤ (db.forcedChunks ver).length then 1 else 0) (db.forcedChunks ver) := by
  have hsame := (h.again hs hbottom).2
  have hkept' : db.forcedKept ver' ≠ [] := by
    rwa [← flatten_forcedChunks, hsame, flatten_forcedChunks]
  have hlevel : (forcedJob ver').outputLevel =
      if 2 ≤ (db.forcedChunks ver).length then 1 else 0 := by
    rw [← h.length]
    split
    · rename_i htwo
      exact (forcedJob_of_two htwo).1
    · rename_i hone
      exact forcedJob_of_one (not_le.1 hone)
  rw [← hlevel, ← hsame]
  exact hr.holdsAt hkept'

end Rounds

/-! ## The call -/

section Call

variable {base db : DB} {ver : Version} {next : Nat}

theorem length_forcedChunks_pos (hkept : base.forcedKept ver ≠ []) :
    1 ≤ (base.forcedChunks ver).length := by
  refine List.length_pos_iff.2 fun hnil => hkept ?_
  rw [← flatten_forcedChunks, hnil]
  rfl

/-- Nothing is kept: the version stays, and so does the reason for the next round. -/
theorem never_returns_of_nil (hs : ver.Sound) (hfit : base.ChunksFit ver) (hd : DB.compactDone ver = false)
    (hne : ver.allFiles ≠ []) (hkept : base.forcedKept ver = []) (h : DB.BetweenRounds base ver next db)
    (hpend : db.compactionPending = true) : ¬ db.Returns := by
  refine never_returns (C := fun v => v = ver) ?_ ?_ rfl h hpend
  · rintro _ rfl
    exact ⟨hs, hfit, hne⟩
  · rintro _ ver' rfl hround
    obtain rfl := hround.eq_self hkept
    exact ⟨rfl, Or.inr hd⟩

variable (hs : ver.Sound) (hfit : base.ChunksFit ver) (htwo : 2 ≤ ver.allFiles.length)
  (hkept : base.forcedKept ver ≠ []) (h : DB.BetweenRounds base ver next db)
  (hpend : db.compactionPending = true)
include hs hfit htwo hkept h hpend

/-- L1 is over its limit after every round, and more than one file, or one file too many for
    L0. -/
theorem never_returns_of_limit
    (hover : base.opts.compactionTrigger = 0 ∨
      base.opts.l1MaxBytes < UInt64.ofNat (64 * (base.forcedKept ver).length))
    (hlast : 2 ≤ (base.forcedChunks ver).length ∨ base.opts.compactionTrigger.toNat ≤ 1) :
    ¬ db.Returns := by
  obtain ⟨hlevel, hbottom⟩ := forcedJob_of_two htwo
  have hpos := length_forcedChunks_pos hkept
  have hneeds₁ : ∀ {v : Version}, v.HoldsAt 1 (base.forcedChunks ver) →
      needsCompaction base.opts v = true := fun hv =>
    (hv.needs_one base.opts).2 (by rwa [flatten_forcedChunks])
  refine never_returns (C := fun v => v = ver ∨ ∃ l, v.HoldsAt l (base.forcedChunks ver)) ?_ ?_
    (Or.inl rfl) h hpend
  · rintro v (rfl | ⟨l, hv⟩)
    · exact ⟨hs, hfit, List.length_pos_iff.1 (by omega)⟩
    · obtain ⟨hs', hsame⟩ := hv.again hs hbottom
      refine ⟨hs', hfit.congr hsame, List.length_pos_iff.1 ?_⟩
      rw [hv.length]
      exact hpos
  · rintro v v' (rfl | ⟨l, hv⟩) hround
    · have hv' := hlevel ▸ hround.holdsAt hkept
      exact ⟨Or.inr ⟨1, hv'⟩, Or.inl (hneeds₁ hv')⟩
    · have hv' := hv.round hs hbottom hkept hround
      refine ⟨Or.inr ⟨_, hv'⟩, Or.inl ?_⟩
      split at hv'
      · exact hneeds₁ hv'
      · rename_i hone
        rw [hv'.needs_zero]
        exact le_trans (hlast.resolve_left hone) hpos

variable (hnum : next + ((base.forcedChunks ver).length + 1) ≤ 2 ^ 31 - 1)
include hnum

/-- L1 is within its limit after the first round. -/
theorem returns_of_limit (htrig : base.opts.compactionTrigger ≠ 0)
    (hle : UInt64.ofNat (64 * (base.forcedKept ver).length) ≤ base.opts.l1MaxBytes) :
    db.Returns := by
  obtain ⟨hlevel, hbottom⟩ := forcedJob_of_two htwo
  refine returns_of_round hs hfit (List.length_pos_iff.1 (by omega)) (by omega) h hpend
    fun ver' db' hround hidle hp => ?_
  have hv' : ver'.HoldsAt 1 (base.forcedChunks ver) := hlevel ▸ hround.holdsAt hkept
  have hnot : needsCompaction base.opts ver' = false := by
    rw [← Bool.not_eq_true, hv'.needs_one, flatten_forcedChunks]
    exact fun hover => hover.elim htrig (not_lt.2 hle)
  obtain ⟨hs', hsame⟩ := hv'.again hs hbottom
  refine returns_of_done hs' (hfit.congr hsame) ?_ hidle (hp.trans hnot) hv'.done_one
  exact List.length_pos_iff.1 (hv'.length ▸ length_forcedChunks_pos hkept)

/-- A single file goes to L0 with the second round, if there is one. -/
theorem returns_of_single (hone : (base.forcedChunks ver).length = 1)
    (htrig : 2 ≤ base.opts.compactionTrigger.toNat) : db.Returns := by
  obtain ⟨hlevel, hbottom⟩ := forcedJob_of_two htwo
  refine returns_of_round hs hfit (List.length_pos_iff.1 (by omega)) (by omega) h hpend
    fun ver' db' hround hidle hp => ?_
  have hv' : ver'.HoldsAt 1 (base.forcedChunks ver) := hlevel ▸ hround.holdsAt hkept
  obtain ⟨hs', hsame⟩ := hv'.again hs hbottom
  have hne' : ver'.allFiles ≠ [] := List.length_pos_iff.1 (by rw [hv'.length, hone]; decide)
  cases hneeds : needsCompaction base.opts ver' with
  | false => exact returns_of_done hs' (hfit.congr hsame) hne' hidle (hp.trans hneeds) hv'.done_one
  | true =>
    refine returns_of_round hs' (hfit.congr hsame) hne' (by rw [hsame]; omega) hidle
      (hp.trans hneeds) fun ver'' db'' hround' hidle' hp' => ?_
    have hv'' := hv'.round hs hbottom hkept hround'
    rw [hone, if_neg (by decide)] at hv''
    have hnot : needsCompaction base.opts ver'' = false := by
      rw [← Bool.not_eq_true, hv''.needs_zero, hone]
      omega
    obtain ⟨hs'', hsame'⟩ := hv''.again hs hbottom
    refine returns_of_done hs'' (hfit.congr hsame') ?_ hidle' (hp'.trans hnot)
      (hv''.done_of_single (le_of_eq hone))
    exact List.length_pos_iff.1 (by rw [hv''.length, hone]; decide)

end Call

/-- The condition on which a call returns: it has nothing to do, or the merge keeps something and
    then either L1 takes it, or it is one file and L0 may have one. -/
def DB.CompactEnds (db : DB) : Prop :=
  DB.compactDone db.version = true ∨
    db.forcedKept db.version ≠ [] ∧
      (1 ≤ db.opts.compactionTrigger ∧
          UInt64.ofNat (64 * (db.forcedKept db.version).length) ≤ db.opts.l1MaxBytes ∨
        (db.forcedChunks db.version).length = 1 ∧ 2 ≤ db.opts.compactionTrigger)

/-- The call that has something to do asks for a round. -/
theorem compactCall_idle {db : DB} (hjob : db.job = none) (hwait : db.waiting = 0)
    (hd : DB.compactDone db.version = false) :
    DB.BetweenRounds db db.version db.nextSst db.compactCall ∧ db.compactCall.compactionPending = true ∧
      2 ≤ db.version.allFiles.length := by
  rcases DB.compactTurn_inv { db with forceCompact := true, waiting := db.waiting + 1 } with
    ⟨hd', -⟩ | ⟨-, he⟩
  · exact absurd (hd.symm.trans hd') (by decide)
  · rw [DB.compactCall, he]
    refine ⟨⟨⟨by simp [hwait], rfl, rfl, rfl, rfl⟩, hjob, rfl⟩, by simp [hjob], ?_⟩
    by_contra hlt
    have hone : db.version.totalFileCount ≤ 1 := Nat.lt_succ_iff.1 (not_le.1 hlt)
    simp [DB.compactDone, hone] at hd

/-- **When `compact` returns.** For every version of tables as written, all options and all
    snapshots, with the compaction thread idle, outputs that can be read and enough file numbers:
    whatever the steps of the call and of the thread are, the call returns if and only if
    `CompactEnds`. -/
theorem compact_returns_iff {db : DB} (hjob : db.job = none) (hwait : db.waiting = 0)
    (hs : db.version.Sound) (hfit : db.ChunksFit db.version)
    (hnum : db.nextSst + ((db.forcedChunks db.version).length + 1) ≤ 2 ^ 31 - 1) :
    db.compactCall.Returns ↔ db.CompactEnds := by
  cases hd : DB.compactDone db.version with
  | true =>
    refine iff_of_true (.here ?_) (Or.inl hd)
    simp [DB.compactCall, DB.compactTurn, hd, hwait]
  | false =>
    obtain ⟨hidle, hpend, htwo⟩ := compactCall_idle hjob hwait hd
    have hne : db.version.allFiles ≠ [] := List.length_pos_iff.1 (by omega)
    unfold DB.CompactEnds
    rw [or_iff_right (by rw [hd]; decide)]
    by_cases hkept : db.forcedKept db.version = []
    · exact iff_of_false (never_returns_of_nil hs hfit hd hne hkept hidle hpend) fun h => h.1 hkept
    rw [and_iff_right hkept]
    constructor
    · intro hret
      by_contra hcond
      rw [not_or, not_and_or, not_and_or] at hcond
      obtain ⟨hlimit, hlast⟩ := hcond
      refine never_returns_of_limit hs hfit htwo hkept hidle hpend ?_ ?_ hret
      · refine hlimit.imp (fun hlt => UInt64.toNat_inj.1 ?_) not_le.1
        exact Nat.lt_one_iff.1 (UInt64.lt_iff_toNat_lt.1 (not_le.1 hlt))
      · refine hlast.imp (fun hne1 => ?_) fun hlt => ?_
        · have hpos := length_forcedChunks_pos hkept
          omega
        · exact Nat.lt_succ_iff.1 (UInt64.lt_iff_toNat_lt.1 (not_le.1 hlt))
    · rintro (⟨htrig, hle⟩ | ⟨hone, htrig⟩)
      · refine returns_of_limit hs hfit htwo hkept hidle hpend hnum ?_ hle
        rintro hzero
        rw [hzero] at htrig
        exact absurd htrig (by decide)
      · exact returns_of_single hs hfit htwo hkept hidle hpend hnum hone
          (UInt64.le_iff_toNat_le.1 htrig)

/-- The tables of a state reached without closing the store are as written. -/
theorem sound_of_run {opts : Options} {evs : List Event} {db : DB}
    (hevs : ∀ ev ∈ evs, ev.ofOpen = false) (hfits : Steps.Meets DB.step DB.Fits (DB.create opts) evs)
    (hrun : (DB.create opts).run evs = some db)
    (hu : UniqueSeqs (db.version.allFiles.flatMap FileMeta.contents)) : db.version.Sound := by
  refine ⟨?_, hu⟩
  have hw : db.WellFormed :=
    @Steps.run_invariant DB Event DB.step (fun s ev => ev.ofOpen = false ∧ s.Fits ev)
      (DB.create opts) db evs DB.WellFormed
      (fun s ev s' hw hev hs => hw.step (by rintro opts coins rfl; cases hev.1) hev.2 hs)
      (DB.wellFormed_create opts) ((Steps.Meets.of_mem hevs).and hfits) hrun
  exact hw.okFiles

/-- Two flushed files. -/
def twoFiles : List Event := callPut 1 1 ++ [.flush] ++ callPut 2 1 ++ [.flush]

theorem compact_returns_twoFiles : ∃ db, (DB.create {}).run twoFiles = some db ∧
    DB.compactDone db.version = false ∧ db.compactCall.Returns := by
  have h : (((DB.create {}).run twoFiles).map fun db =>
      decide (DB.compactDone db.version = false ∧ db.job.isNone ∧ db.waiting = 0 ∧
        (∀ a ∈ db.version.allFiles.flatMap FileMeta.contents,
          ∀ b ∈ db.version.allFiles.flatMap FileMeta.contents,
            a.key = b.key → a.seq = b.seq → a = b) ∧
        db.ChunksFit db.version ∧
        db.nextSst + ((db.forcedChunks db.version).length + 1) ≤ 2 ^ 31 - 1 ∧
        db.forcedKept db.version ≠ [] ∧ 1 ≤ db.opts.compactionTrigger ∧
        UInt64.ofNat (64 * (db.forcedKept db.version).length) ≤ db.opts.l1MaxBytes)) =
      some true := by
    decide +kernel
  obtain ⟨db, hdb, h⟩ := Option.map_eq_some_iff.1 h
  obtain ⟨hd, hjob, hwait, hu, hfit, hnum, hkept, hlimit⟩ := of_decide_eq_true h
  have hs := sound_of_run (by decide) (by decide +kernel) hdb hu
  exact ⟨db, hdb, hd, (compact_returns_iff (by simpa using hjob) hwait hs hfit hnum).2
    (Or.inr ⟨hkept, Or.inl hlimit⟩)⟩

/-- A key, flushed, and its deletion, flushed: the merge of the two files keeps nothing. -/
def deletedKey : List Event :=
  callPut 97 1 ++ [.flush, .assign [.del [97]], .apply [], .flush]

theorem compact_never_returns : ∃ db, (DB.create {}).run deletedKey = some db ∧
    ¬ db.compactCall.Returns := by
  have h : (((DB.create {}).run deletedKey).map fun db =>
      decide (DB.compactDone db.version = false ∧ db.job.isNone ∧ db.waiting = 0 ∧
        (∀ a ∈ db.version.allFiles.flatMap FileMeta.contents,
          ∀ b ∈ db.version.allFiles.flatMap FileMeta.contents,
            a.key = b.key → a.seq = b.seq → a = b) ∧
        db.ChunksFit db.version ∧ db.forcedKept db.version = [])) = some true := by
    decide +kernel
  obtain ⟨db, hdb, h⟩ := Option.map_eq_some_iff.1 h
  obtain ⟨hd, hjob, hwait, hu, hfit, hkept⟩ := of_decide_eq_true h
  have hs := sound_of_run (by decide) (by decide +kernel) hdb hu
  obtain ⟨hidle, hpend, htwo⟩ := compactCall_idle (by simpa using hjob) hwait hd
  exact ⟨db, hdb,
    never_returns_of_nil hs hfit hd (List.length_pos_iff.1 (by omega)) hkept hidle hpend⟩

end Keystone
