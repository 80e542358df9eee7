/-
  Recency layering over whole runs.

  `DB.Sound` is the invariant of the engine: the memtable is above all tables in age, the
  version is layered and disjoint, and the round in progress is placed. Every step keeps it,
  as long as `StepOk` holds before the step.

  `StepOk` leaves out what the code gets wrong: records and blocks their readers do not take, a
  round of L0 that loses its key range, a round that splits the versions of a key over two
  files, a one-file forced round that overtakes a flush, and a MANIFEST its reader cannot take;
  and the wrap-around of the counter.

  `commit_keeps_visible`: a round changes nothing that a reader can see, as long as what is
  written while it runs can be read back; `commit_loses_value` is a round whose output cannot.
-/
import Keystone.Round

namespace Keystone

/-! ## A flush -/

section PushL0

variable {ver : Version} {fm : FileMeta} {job : CompactionJob}

theorem files_pushL0_zero : (ver.pushL0 fm).files 0 = ver.files 0 ++ [fm] := by
  simp [Version.pushL0]

theorem files_pushL0_of_ne {l : Level} (h : l ≠ 0) : (ver.pushL0 fm).files l = ver.files l := by
  simp [Version.pushL0, h]

theorem mem_files_pushL0 {l : Level} {f : FileMeta} (h : f ∈ (ver.pushL0 fm).files l) :
    f ∈ ver.files l ∨ (l = 0 ∧ f = fm) := by
  by_cases hl : l = 0
  · subst hl
    rw [files_pushL0_zero, List.mem_append, List.mem_singleton] at h
    exact h.imp_right fun h => ⟨rfl, h⟩
  · rw [files_pushL0_of_ne hl] at h
    exact Or.inl h

variable {R : List Entry → List Entry → Prop}

theorem Version.LayeredBy.pushL0 (h : ver.LayeredBy R)
    (htop : ∀ f ∈ ver.allFiles, R fm.contents f.contents) : (ver.pushL0 fm).LayeredBy R where
  l0 := by
    rw [files_pushL0_zero, List.pairwise_append]
    refine ⟨h.l0, List.pairwise_singleton _ _, fun f hf g hg => ?_⟩
    rw [List.mem_singleton.1 hg]
    exact htop f (Version.mem_allFiles.2 ⟨0, hf⟩)
  levels := by
    intro i j hij f hf g hg
    have hj : j ≠ 0 := fun e => absurd hij (by rw [e]; exact Fin.not_lt_zero i)
    rw [files_pushL0_of_ne hj] at hg
    rcases mem_files_pushL0 hf with hf | ⟨-, rfl⟩
    · exact h.levels i j hij f hf g hg
    · exact htop g (Version.mem_allFiles.2 ⟨j, hg⟩)

theorem Version.Disjoint.pushL0 (h : ver.Disjoint) : (ver.pushL0 fm).Disjoint := by
  intro l hl
  have hne : l ≠ 0 := fun e => absurd hl (by rw [e]; decide)
  rw [files_pushL0_of_ne hne]
  exact h l hl

theorem PlacedBy.pushL0 (h : PlacedBy R ver job)
    (htop : ∀ f ∈ job.inputs, R fm.contents f.contents) : PlacedBy R (ver.pushL0 fm) job where
  above := by
    intro i hi f hf hout g hg
    rcases mem_files_pushL0 hf with hf | ⟨-, rfl⟩
    · exact h.above i hi f hf hout g hg
    · exact htop g hg
  below := by
    intro i hi f hf
    have hne : i ≠ 0 := fun e => absurd hi (by rw [e]; exact Fin.not_lt_zero _)
    rw [files_pushL0_of_ne hne] at hf
    exact h.below i hi f hf
  hull := by
    intro h1 g hg
    have hne : job.outputLevel ≠ 0 := fun e => absurd h1 (by rw [e]; decide)
    rw [files_pushL0_of_ne hne] at hg
    exact h.hull h1 g hg
  bottom := by
    intro hb i hi f hf
    have hne : i ≠ 0 := fun e => absurd hi (by rw [e]; exact Fin.not_lt_zero _)
    rw [files_pushL0_of_ne hne] at hf
    exact h.bottom hb i hi f hf

end PushL0

/-! ## A commit -/

section Commit

variable {ver : Version} {job : CompactionJob} {outputs : List FileMeta}

/-- What the outputs of a round are when it commits. -/
structure OutputsOk (ver : Version) (job : CompactionJob) (outputs : List FileMeta) : Prop where
  ok : ∀ f ∈ outputs, f.Ok
  sub : ∀ f ∈ outputs, ∀ e ∈ f.contents, ∃ g ∈ job.inputs, e ∈ g.contents
  increase : outputs.Pairwise fun f g => f.largestKey < g.smallestKey
  inputs : ∀ f ∈ job.inputs, f ∈ ver.allFiles
  /-- A round into L0 finds no other file there. -/
  l0 : job.outputLevel = 0 → ∀ f ∈ ver.files 0, f ∈ job.inputs

theorem not_mem_inputs {f : FileMeta} (h : f.number ∉ job.inputs.map FileMeta.number) :
    f ∉ job.inputs := fun hmem => h (List.mem_map_of_mem hmem)

/-- After a round into L0 the outputs are all there is in it. -/
theorem OutputsOk.files_commit_zero (ho : OutputsOk ver job outputs) (hl : job.outputLevel = 0) :
    (commitVersion ver job outputs).files 0 = outputs := by
  have hnone : job.remaining (ver.files 0) = [] := by
    rw [CompactionJob.remaining, List.filter_eq_nil_iff]
    intro f hf
    rw [decide_eq_true_eq, not_not]
    exact List.mem_map_of_mem (ho.l0 hl f hf)
  simp [commitVersion, hl, hnone]

/-- An output is above whatever all inputs are above. -/
def OutputsOver (R : List Entry → List Entry → Prop) (job : CompactionJob)
    (outputs : List FileMeta) : Prop :=
  ∀ f ∈ outputs, ∀ es, (∀ a ∈ job.inputs, R a.contents es) → R f.contents es

theorem OutputsOk.over_notOlder (ho : OutputsOk ver job outputs) :
    OutputsOver NotOlder job outputs := by
  intro f hf es h x hx
  obtain ⟨a, ha, hxa⟩ := ho.sub f hf x hx
  exact h a ha x hxa

theorem Version.LayeredBy.commit {R : List Entry → List Entry → Prop} (hR : AgeOrder R)
    (h : ver.LayeredBy R) (hpl : PlacedBy R ver job) (ho : OutputsOk ver job outputs)
    (hover : OutputsOver R job outputs) : (commitVersion ver job outputs).LayeredBy R where
  l0 := by
    by_cases hl : job.outputLevel = 0
    · rw [ho.files_commit_zero hl]
      refine ho.increase.imp_of_mem fun {f g} hf hg hlt => ?_
      exact hR.of_apart (Or.inr hlt) (ho.ok g hg) (ho.ok f hf)
    · rw [files_commit_of_ne (Ne.symm hl)]
      exact h.l0.sublist (remaining_sublist job _)
  levels := by
    intro i j hij f hf g hg
    rcases mem_files_commit.1 hf with ⟨hf', hfn⟩ | ⟨rfl, hf'⟩ <;>
      rcases mem_files_commit.1 hg with ⟨hg', hgn⟩ | ⟨rfl, hg'⟩
    · exact h.levels i j hij f hf' g hg'
    · refine hR.of_mem fun y hy => ?_
      obtain ⟨a, ha, hya⟩ := ho.sub g hg' y hy
      exact ⟨a.contents, hya, hpl.above i hij f hf' (not_mem_inputs hfn) a ha⟩
    · exact hover f hf' g.contents fun a ha => hpl.below j hij g hg' (not_mem_inputs hgn) a ha
    · exact absurd hij (lt_irrefl _)

/-- Files apart from each other, sorted by their first key, have increasing ranges. -/
theorem increase_of_sorted {files : List FileMeta} (hok : ∀ f ∈ files, f.Ok)
    (hap : files.Pairwise FileMeta.Apart)
    (hs : files.Pairwise fun f g => f.smallestKey ≤ g.smallestKey) :
    files.Pairwise fun f g => f.largestKey < g.smallestKey := by
  refine (hap.and hs).imp_of_mem fun {f g} _ hg h => ?_
  refine h.1.resolve_right fun hlt => ?_
  exact absurd (lt_of_le_of_lt (hok g hg).range_le hlt) (not_lt.2 h.2)

/-- An output lies beside every file of its level that stays. -/
theorem HullClear.apart_output (hull : HullClear ver job) (ho : OutputsOk ver job outputs)
    (hok : ∀ f ∈ ver.allFiles, f.Ok) {f g : FileMeta}
    (hf : f ∈ ver.files job.outputLevel) (hout : f ∉ job.inputs) (hg : g ∈ outputs) :
    f.Apart g := by
  have hgok := ho.ok g hg
  obtain ⟨e, he, hek⟩ := headKey_mem hgok.ne_nil
  obtain ⟨e', he', hek'⟩ := lastKey_mem hgok.ne_nil
  obtain ⟨a, ha, hea⟩ := ho.sub g hg e he
  obtain ⟨a', ha', hea'⟩ := ho.sub g hg e' he'
  have hlo := ((hok a (ho.inputs a ha)).key_mem hea).1
  have hhi := ((hok a' (ho.inputs a' ha')).key_mem hea').2
  rw [hek, ← hgok.smallest] at hlo
  rw [hek', ← hgok.largest] at hhi
  rcases hull f hf hout with h | h
  · exact Or.inl (lt_of_lt_of_le (h a ha) hlo)
  · exact Or.inr (lt_of_le_of_lt hhi (h a' ha'))

theorem Version.Disjoint.commit (h : ver.Disjoint)
    (hull : 1 ≤ job.outputLevel → HullClear ver job)
    (ho : OutputsOk ver job outputs) (hok : ∀ f ∈ ver.allFiles, f.Ok) :
    (commitVersion ver job outputs).Disjoint := by
  intro l hl
  by_cases hlo : l = job.outputLevel
  · subst hlo
    have hrem : (job.remaining (ver.files job.outputLevel)).Pairwise FileMeta.Apart :=
      ((h _ hl).imp Or.inl : (ver.files job.outputLevel).Pairwise FileMeta.Apart).sublist
        (remaining_sublist job _)
    have hap : (job.remaining (ver.files job.outputLevel) ++ outputs).Pairwise FileMeta.Apart := by
      rw [List.pairwise_append]
      refine ⟨hrem, ho.increase.imp Or.inl, fun f hf g hg => ?_⟩
      obtain ⟨hf, hfn⟩ := mem_remaining.1 hf
      exact (hull hl).apart_output ho hok hf (not_mem_inputs hfn) hg
    have hfiles : (commitVersion ver job outputs).files job.outputLevel =
        sortByKey (job.remaining (ver.files job.outputLevel) ++ outputs) := by
      simp [commitVersion, hl]
    rw [hfiles]
    refine increase_of_sorted (fun f hf => ?_) ?_ (List.pairwise_insertionSort _ _)
    · rcases List.mem_append.1 ((sortByKey_perm _).mem_iff.1 hf) with hf | hf
      · exact hok f (Version.mem_allFiles.2 ⟨_, (mem_remaining.1 hf).1⟩)
      · exact ho.ok f hf
    · exact (List.Perm.pairwise_iff (fun h => h.symm) (sortByKey_perm _)).2 hap
  · rw [files_commit_of_ne hlo]
    exact (h l hl).sublist (remaining_sublist job _)

end Commit

/-! ## The invariant -/

/-- The round in progress: its outputs are the kept entries in increasing files, and it respects
    the live snapshots. -/
structure RoundRuns (db : DB) (j : Job) : Prop where
  ok : ∃ oldestSnap stream, RoundOk db oldestSnap stream j ∧
    ∀ s ∈ db.liveSnapshots, oldestSnap ≤ s ∨ ∀ e ∈ stream, e.seq ≤ s
  increase : j.parts.Pairwise fun a b => lastKey a < headKey b
  numbers : j.numbers.Pairwise (· < ·)

/-- And it is placed. -/
structure RoundSound (db : DB) (j : Job) : Prop extends RoundRuns db j where
  placed : Placed db.version j.job

/-- What reads rely on, in the state alone. -/
structure DB.Ordered (db : DB) : Prop where
  wellFormed : db.WellFormed
  seqs : db.SeqsOk
  unique : UniqueSeqs db.entries
  onTop : NotOlder db.memtable.entries db.tables
  layered : db.version.Layered
  disjoint : db.version.Disjoint
  l0Numbers : (db.version.files 0).Pairwise fun f g => f.number < g.number
  round : ∀ j, db.job = some j → RoundSound db j

/-- The invariant of the engine: the same, and a MANIFEST that says so. -/
structure DB.Sound (db : DB) : Prop extends DB.Ordered db where
  manifest : ManifestOk db.dir.manifest db.version

/-- The entries the next round keeps. -/
def DB.kept (db : DB) (pq : SourceQueue) : List Entry :=
  retain db.oldestLiveSnapshot (pickCompaction db.opts db.forceCompact db.version).isBottommost
    ⟨[], false⟩ (roundStream pq (pickCompaction db.opts db.forceCompact db.version).inputs)

/-- The pick of a round of L0 does not lose its key range. -/
def DB.RangeKept (db : DB) : Event → Prop
  | .pick _ => db.forceCompact = false →
      db.opts.compactionTrigger.toNat ≤ (db.version.files 0).length → L0RangeKept db.version
  | _ => True

/-- The files of the round that is picked are cut between keys. -/
def DB.CutsKept (db : DB) : Event → Prop
  | .pick pq => CutsBetweenKeys db.opts.targetFileSize.toNat 0 (db.kept pq)
  | _ => True

/-- A round into L0 finds no other file there when it commits. -/
def DB.L0Kept (db : DB) : Event → Prop
  | .commit => ∀ j ∈ db.job, j.job.outputLevel = 0 → ∀ f ∈ db.version.files 0, f ∈ j.job.inputs
  | _ => True

/-- What a step needs to keep the layers in order; a condition on the state before it. -/
structure OrderOk (db : DB) (ev : Event) : Prop where
  wrap : db.NoWrap ev
  fits : db.Fits ev
  range : db.RangeKept ev
  cuts : db.CutsKept ev
  l0 : db.L0Kept ev

/-- And what it needs to keep the MANIFEST readable. -/
structure StepOk (db : DB) (ev : Event) : Prop extends OrderOk db ev where
  reader : Manifest.ReaderOk db.version.toManifest

instance (db : DB) (ev : Event) : Decidable (db.NoWrap ev) :=
  match ev with
  | .assign ops => inferInstanceAs (Decidable (db.nextSeq.toNat + ops.length < 2 ^ 64))
  | .apply _ | .flush | .maybeFlush | .getSnapshot | .releaseSnapshot _ | .compactCall
  | .compactWake | .pick _ | .startWriter | .finishWriter | .commit | .unlink _
  | .reopen _ _ => instDecidableTrue

instance (ev : Event) : Decidable (ev = .commit) :=
  decidable_of_bool (match ev with | .commit => true | _ => false) (by cases ev <;> simp)

instance (db : DB) (ev : Event) : Decidable (db.RangeKept ev) :=
  match ev with
  | .pick _ => inferInstanceAs (Decidable (_ → _ → _))
  | .assign _ | .apply _ | .flush | .maybeFlush | .getSnapshot | .releaseSnapshot _ | .compactCall
  | .compactWake | .startWriter | .finishWriter | .commit | .unlink _
  | .reopen _ _ => instDecidableTrue

instance (db : DB) (ev : Event) : Decidable (db.CutsKept ev) :=
  match ev with
  | .pick pq => inferInstanceAs (Decidable (CutsBetweenKeys _ 0 (db.kept pq)))
  | .assign _ | .apply _ | .flush | .maybeFlush | .getSnapshot | .releaseSnapshot _ | .compactCall
  | .compactWake | .startWriter | .finishWriter | .commit | .unlink _
  | .reopen _ _ => instDecidableTrue

instance (db : DB) (ev : Event) : Decidable (db.L0Kept ev) :=
  match ev with
  | .commit => inferInstanceAs (Decidable (∀ j ∈ db.job, j.job.outputLevel = 0 →
      ∀ f ∈ db.version.files 0, f ∈ j.job.inputs))
  | .assign _ | .apply _ | .flush | .maybeFlush | .getSnapshot | .releaseSnapshot _ | .compactCall
  | .compactWake | .pick _ | .startWriter | .finishWriter | .unlink _
  | .reopen _ _ => instDecidableTrue

instance (db : DB) (ev : Event) : Decidable (OrderOk db ev) :=
  decidable_of_iff (db.NoWrap ev ∧ db.Fits ev ∧ db.RangeKept ev ∧ db.CutsKept ev ∧ db.L0Kept ev)
    ⟨fun h => ⟨h.1, h.2.1, h.2.2.1, h.2.2.2.1, h.2.2.2.2⟩,
      fun h => ⟨h.wrap, h.fits, h.range, h.cuts, h.l0⟩⟩

instance (db : DB) (ev : Event) : Decidable (StepOk db ev) :=
  decidable_of_iff (OrderOk db ev ∧ Manifest.ReaderOk db.version.toManifest)
    ⟨fun h => ⟨h.1, h.2⟩, fun h => ⟨h.toOrderOk, h.reader⟩⟩

section Steps

variable {db db' : DB}

theorem DB.Ordered.onTop_file (h : db.Ordered) {f : FileMeta} (hf : f ∈ db.version.allFiles) :
    NotOlder db.memtable.entries f.contents :=
  fun x hx y hy => h.onTop x hx y (DB.mem_tables.2 ⟨f, hf, hy⟩)

/-- A snapshot taken now sees everything there is. -/
theorem DB.SeqsOk.le_snapshotSeq (h : db.SeqsOk) {e : Entry} (he : e ∈ db.entries) :
    e.seq ≤ db.snapshotSeq := by
  have hlt := UInt64.lt_iff_toNat_lt.1 (h.entries_lt e he)
  have hone : (1 : UInt64) ≤ db.nextSeq := UInt64.le_iff_toNat_le.2 (by
    rw [UInt64.toNat_one]
    omega)
  rw [UInt64.le_iff_toNat_le, DB.snapshotSeq, UInt64.toNat_sub_of_le _ _ hone, UInt64.toNat_one]
  omega

/-- Only `getSnapshot` adds a snapshot. -/
theorem snapshots_step {ev : Event} (hr : ∀ opts coins, ev ≠ .reopen opts coins)
    (h : db.step ev = some db') :
    ∀ s ∈ db'.liveSnapshots, s ∈ db.liveSnapshots ∨ (ev = .getSnapshot ∧ s = db.snapshotSeq) := by
  intro s hs
  have hsame : ev.ofSnapshots = false →
      s ∈ db.liveSnapshots ∨ (ev = .getSnapshot ∧ s = db.snapshotSeq) :=
    fun hev => Or.inl ((DB.step_frame h).snapshots hev ▸ hs)
  cases ev with
  | getSnapshot =>
    obtain rfl := Option.some.inj h
    exact (List.mem_cons.1 hs).symm.imp_right fun he => ⟨rfl, he⟩
  | releaseSnapshot seq =>
    obtain rfl := Option.some.inj h
    exact Or.inl (List.mem_of_mem_erase hs)
  | reopen opts coins => exact absurd rfl (hr opts coins)
  | _ => exact hsame rfl

/-- A round stays placed until its commit: a flush puts its file on top. -/
theorem PlacedBy.step {R : List Entry → List Entry → Prop} (hw : db.WellFormed) {j : Job}
    (hj : db.job = some j) (hpl : PlacedBy R db.version j.job)
    (htop : ∀ f ∈ db.version.allFiles, R db.memtable.entries f.contents) {ev : Event}
    (hfit : db.TablesFit ev) (hc : ev ≠ .commit) (h : db.step ev = some db') :
    PlacedBy R db'.version j.job := by
  cases DB.step_kind h with
  | assign ops hev h =>
    obtain ⟨-, -, rfl⟩ := DB.assign_inv h
    exact hpl
  | apply coins hev h =>
    obtain ⟨-, rfl⟩ := DB.apply_inv h
    exact hpl
  | flush hev hnew h =>
    rcases DB.flush_inv hw.stored (hfit.of_new hnew) h with
      ⟨-, rfl⟩ | ⟨-, fm, -, -, -, hcont, rfl⟩
    · exact hpl
    · refine hpl.pushL0 fun f hf => ?_
      rw [hcont]
      exact htop f (hw.tables.inputs f (by rw [hj]; exact hf))
  | commit hev h => exact absurd hev hc
  | reopen opts coins hev h =>
    obtain ⟨-, hnone, -⟩ := DB.reopen_inv h
    rw [hj] at hnone
    simp at hnone
  | quiet hev mem ver inflight seq => exact ver ▸ hpl

/-- **One step of the round in progress.** -/
theorem RoundRuns.step (hw : db.WellFormed) (hs : db.SeqsOk) {j : Job} (hj : db.job = some j)
    (hr : RoundRuns db j) {ev : Event} (hfit : db.TablesFit ev) (hc : ev ≠ .commit)
    (h : db.step ev = some db') :
    ∀ j', db'.job = some j' → j'.job = j.job ∧ RoundRuns db' j' := by
  obtain ⟨oldestSnap, stream, hok, hsnap⟩ := hr.ok
  obtain ⟨j₁, hj₁, hjob, hparts, hnum⟩ := job_step hw.stored hj hfit hc h
  obtain ⟨j₂, hj₂, -, hok'⟩ := hok.step hw.stored hs hj hfit hc h
  obtain rfl : j₁ = j₂ := Option.some.inj (hj₁.symm.trans hj₂)
  intro j' hj'
  obtain rfl : j₁ = j' := Option.some.inj (hj₁.symm.trans hj')
  have hre : ∀ opts coins, ev ≠ .reopen opts coins := by
    rintro opts coins rfl
    obtain ⟨-, hnone, -⟩ := DB.reopen_inv h
    rw [hj] at hnone
    simp at hnone
  refine ⟨hjob, ⟨oldestSnap, stream, hok', fun s hmem => ?_⟩, ?_, ?_⟩
  · rcases snapshots_step hre h s hmem with hold | ⟨-, rfl⟩
    · exact hsnap s hold
    · -- taken after the pick: it sees everything that is merged
      refine Or.inr fun e he => hs.le_snapshotSeq ?_
      obtain ⟨fm, hfm, he⟩ := (hok.stream_mem e).1 he
      exact DB.mem_entries.2 (Or.inr ⟨fm, hw.tables.inputs fm (by rw [hj]; exact hfm), he⟩)
  · rw [hparts]
    exact hr.increase
  · rcases hnum with hnum | hnum
    · rw [hnum]
      exact hr.numbers
    · rw [hnum, List.pairwise_append]
      refine ⟨hr.numbers, List.pairwise_singleton _ _, fun a ha b hb => ?_⟩
      rw [List.mem_singleton.1 hb]
      refine hw.tables.used_lt a ?_
      rw [hj, usedNumbers, List.map_append, List.append_assoc]
      exact List.mem_append_right _ ha

theorem RoundSound.step (hs : db.Ordered) {j : Job} (hj : db.job = some j) {ev : Event}
    (hfit : db.TablesFit ev) (hc : ev ≠ .commit) (h : db.step ev = some db') :
    ∀ j', db'.job = some j' → RoundSound db' j' := by
  have hr := hs.round j hj
  intro j' hj'
  obtain ⟨hjob, hr'⟩ := hr.toRoundRuns.step hs.wellFormed hs.seqs hj hfit hc h j' hj'
  exact ⟨hr', hjob ▸ PlacedBy.step hs.wellFormed hj hr.placed (fun _ => hs.onTop_file) hfit hc h⟩

theorem oldest_le {l : List UInt64} {a : UInt64} :
    l.foldl min a ≤ a ∧ ∀ s ∈ l, l.foldl min a ≤ s := by
  induction l generalizing a with
  | nil => simp
  | cons b l ih =>
    obtain ⟨h1, h2⟩ := @ih (min a b)
    refine ⟨le_trans h1 (min_le_left a b), fun s hs => ?_⟩
    rcases List.mem_cons.1 hs with rfl | hs
    · exact le_trans h1 (min_le_right a s)
    · exact h2 s hs

/-- The pick begins a round. -/
theorem RoundRuns.pick (hw : db.WellFormed) (hmem : db.MemtableOnTop)
    (hcov : (pickCompaction db.opts db.forceCompact db.version).isBottommost = true →
      ∀ f ∈ db.version.allFiles, f ∉ (pickCompaction db.opts db.forceCompact db.version).inputs →
      ∀ g ∈ (pickCompaction db.opts db.forceCompact db.version).inputs,
        Covers f.contents g.contents) {pq : SourceQueue}
    (hcut : CutsBetweenKeys db.opts.targetFileSize.toNat 0 (db.kept pq))
    (hstep : db.pick pq = some db') : ∀ j, db'.job = some j →
      j.job = pickCompaction db.opts db.forceCompact db.version ∧ db'.version = db.version ∧
      RoundRuns db' j := by
  intro j hj
  obtain ⟨j', stream, hj', hr, -, -⟩ := roundOk_pick_of_covers hw.stored hmem hcov hstep (by rw [hj]; simp)
  obtain rfl : j' = j := Option.some.inj (hj'.symm.trans hj)
  obtain ⟨hnone, ⟨-, rfl⟩ | ⟨-, rfl⟩⟩ := DB.pick_inv hw.stored hstep
  · rw [hnone] at hj
    simp at hj
  · obtain rfl := Option.some.inj hj
    refine ⟨rfl, rfl, ⟨_, stream, hr, fun s hs => Or.inl (oldest_le.2 s hs)⟩, ?_, ?_⟩
    · have hin := pickCompaction_inputs db.opts db.forceCompact db.version
      exact mergeOutputs_increase (sorted_roundStream fun f hf => hw.okFiles f (hin f hf)) hcut
    · simp [Job.numbers, Job.writerNumbers]

/-- The outputs of a round, when it commits. -/
theorem RoundRuns.outputsOk (hw : db.WellFormed) {job : CompactionJob} {outputs : List FileMeta}
    (hj : db.job = some ⟨job, [], none, outputs⟩) (hr : RoundRuns db ⟨job, [], none, outputs⟩)
    (h0 : job.outputLevel = 0 → ∀ f ∈ db.version.files 0, f ∈ job.inputs) :
    OutputsOk db.version job outputs := by
  have ht := hj ▸ hw.tables
  obtain ⟨oldestSnap, stream, hok, -⟩ := hr.ok
  have hparts : (Job.mk job [] none outputs).parts = outputs.map FileMeta.contents := by
    simp [Job.parts, Job.pieces]
  have hokf : ∀ f ∈ outputs, f.Ok := fun f hf => ht.ok f (List.mem_append_right _ hf)
  refine ⟨hokf, fun f hf e he => ?_, ?_, ht.inputs, h0⟩
  · have hkept := hok.kept
    rw [hparts] at hkept
    have hmem : e ∈ (outputs.map FileMeta.contents).flatten :=
      List.mem_flatten.2 ⟨f.contents, List.mem_map_of_mem hf, he⟩
    rw [hkept] at hmem
    exact (hok.stream_mem e).1 ((retain_sublist _ _ _ _).subset hmem)
  · have hinc := hr.increase
    rw [hparts, List.pairwise_map] at hinc
    refine hinc.imp_of_mem fun {f g} hf hg hlt => ?_
    rw [(hokf f hf).largest, (hokf g hg).smallest]
    exact hlt

end Steps

namespace DB.Ordered

variable {db db' : DB}

theorem onTop_weak (h : db.Ordered) : db.MemtableOnTop :=
  fun m hm e he hk => Or.inl (h.onTop m hm e he hk)

/-- The pick begins a sound round. -/
theorem round_pick (h : db.Ordered) {pq : SourceQueue} (hok : OrderOk db (.pick pq))
    (hstep : db.pick pq = some db') : ∀ j, db'.job = some j → RoundSound db' j := by
  intro j hj
  have hw := h.wellFormed
  have hull := hullClear_pick (fun f hf => (hw.okFiles f hf).range_le) h.disjoint hok.range
  have hpl := placed_pick ageOrder_notOlder hw.tables.level hw.okFiles h.layered h.disjoint hull
  obtain ⟨hjob, hver, hr⟩ := RoundRuns.pick hw h.onTop_weak (fun hb _ hf hout _ hg =>
    (hpl.outside ageOrder_notOlder hull hw.okFiles (pickCompaction_inputs _ _ _) hb hf hout
      hg).covers) hok.cuts hstep j hj
  exact ⟨hr, by rw [hjob, hver]; exact hpl⟩

theorem round_step (h : db.Ordered) {ev : Event} (hok : OrderOk db ev) (hc : ev ≠ .commit)
    (hr : ∀ opts coins, ev ≠ .reopen opts coins) (hstep : db.step ev = some db') :
    ∀ j, db'.job = some j → RoundSound db' j := by
  intro j' hj'
  rcases DB.round_before hr hstep hj' with ⟨pq, rfl, -⟩ | ⟨j, hj, -⟩
  · exact h.round_pick hok hstep j' hj'
  · exact RoundSound.step h hj hok.fits.tables hc hstep j' hj'

/-- Steps other than a commit or a reopen. -/
theorem step_open (h : db.Ordered) {ev : Event} (hok : OrderOk db ev) (hc : ev ≠ .commit)
    (hr : ∀ opts coins, ev ≠ .reopen opts coins) (hstep : db.step ev = some db') : db'.Ordered := by
  have hfit := hok.fits.tables
  have hw := h.wellFormed.step hr hok.fits hstep
  have hs := h.seqs.step h.wellFormed.stored hok.wrap hfit hc hr hstep
  have hu := uniqueSeqs_step h.unique h.seqs h.wellFormed.stored hfit hc hr hstep
  have hround := h.round_step hok hc hr hstep
  cases DB.step_kind hstep with
  | assign ops hev hstep =>
    obtain ⟨-, -, rfl⟩ := DB.assign_inv hstep
    exact ⟨hw, hs, hu, h.onTop, h.layered, h.disjoint, h.l0Numbers, hround⟩
  | apply coins hev hstep =>
    obtain ⟨-, rfl⟩ := DB.apply_inv hstep
    refine ⟨hw, hs, hu, fun x hx y hy hk => ?_, h.layered, h.disjoint, h.l0Numbers, hround⟩
    rcases Memtable.mem_applyAll.1 hx with ⟨r, hr, rfl⟩ | hx
    · rw [Wal.Record.entry_seq]
      exact le_of_lt (h.seqs.inflight_newer r hr y (List.mem_append_right _ hy))
    · exact h.onTop x hx y hy hk
  | flush hev hnew hstep =>
    rcases DB.flush_inv h.wellFormed.stored (hfit.of_new hnew) hstep with
      ⟨-, rfl⟩ | ⟨-, fm, -, hnum, -, hcont, rfl⟩
    · exact h
    · refine ⟨hw, hs, hu, ?_, h.layered.pushL0 fun f hf => ?_, h.disjoint.pushL0, ?_, hround⟩
      · intro x hx
        rw [Memtable.entries_fresh] at hx
        simp at hx
      · rw [hcont]
        exact h.onTop_file hf
      · rw [files_pushL0_zero, List.pairwise_append]
        refine ⟨h.l0Numbers, List.pairwise_singleton _ _, fun f hf g hg => ?_⟩
        rw [List.mem_singleton.1 hg, hnum]
        exact h.wellFormed.tables.used_lt _ (List.mem_append_left _ (List.mem_map_of_mem
          (List.mem_append_left _ (Version.mem_allFiles.2 ⟨0, hf⟩))))
  | commit hev hstep => exact absurd hev hc
  | reopen opts coins hev hstep => exact absurd hev (hr opts coins)
  | quiet hev mem ver inflight seq =>
    exact ⟨hw, hs, hu, by rw [DB.tables, mem, ver]; exact h.onTop, ver ▸ h.layered,
      ver ▸ h.disjoint, ver ▸ h.l0Numbers, hround⟩

theorem commit (h : db.Ordered) (hok : OrderOk db .commit) (hstep : db.commit = some db') :
    db'.Ordered := by
  have hev : ∀ opts coins, Event.commit ≠ .reopen opts coins := by simp
  have hw := h.wellFormed.step hev hok.fits hstep
  obtain ⟨job, outputs, hj, ⟨-, rfl⟩ | ⟨-, rfl⟩⟩ := DB.commit_inv hstep
  · exact ⟨hw, h.seqs.of_subset (fun e he => he) rfl rfl, h.unique, h.onTop, h.layered,
      h.disjoint, h.l0Numbers, by simp⟩
  · have hr := h.round _ hj
    have ho := hr.toRoundRuns.outputsOk h.wellFormed hj (hok.l0 _ hj)
    have hfiles : ∀ f ∈ (commitVersion db.version job outputs).allFiles, ∀ e ∈ f.contents,
        e ∈ db.tables := by
      intro f hf e he
      obtain ⟨l, hl⟩ := Version.mem_allFiles.1 hf
      rcases mem_files_commit.1 hl with ⟨hold, -⟩ | ⟨-, hnew⟩
      · exact DB.mem_tables.2 ⟨f, Version.mem_allFiles.2 ⟨l, hold⟩, he⟩
      · obtain ⟨g, hg, he⟩ := ho.sub f hnew e he
        exact DB.mem_tables.2 ⟨g, ho.inputs g hg, he⟩
    have hsub : ∀ e, e ∈ db.memtable.entries ∨
        (∃ f ∈ (commitVersion db.version job outputs).allFiles, e ∈ f.contents) →
        e ∈ db.entries := by
      rintro e (he | ⟨f, hf, he⟩)
      · exact List.mem_append_left _ he
      · exact List.mem_append_right _ (hfiles f hf e he)
    refine ⟨hw, h.seqs.of_subset (fun e he => hsub e (DB.mem_entries.1 he)) rfl rfl,
      h.unique.subset fun e he => hsub e (DB.mem_entries.1 he), fun x hx y hy hk => ?_,
      h.layered.commit ageOrder_notOlder hr.placed ho ho.over_notOlder,
      h.disjoint.commit hr.placed.hull ho h.wellFormed.okFiles, ?_, by simp⟩
    · obtain ⟨f, hf, hy⟩ := DB.mem_tables.1 hy
      exact h.onTop x hx y (hfiles f hf y hy) hk
    · by_cases hl : job.outputLevel = 0
      · rw [ho.files_commit_zero hl]
        exact List.pairwise_map.1 (List.pairwise_append.1 hr.numbers).1
      · rw [files_commit_of_ne (Ne.symm hl)]
        exact h.l0Numbers.sublist (remaining_sublist job _)

/-- **Every step within the life of the process keeps the order.** -/
theorem step (h : db.Ordered) {ev : Event} (hok : OrderOk db ev)
    (hr : ∀ opts coins, ev ≠ .reopen opts coins) (hstep : db.step ev = some db') :
    db'.Ordered := by
  by_cases hc : ev = .commit
  · subst hc
    exact h.commit hok hstep
  · exact h.step_open hok hc hr hstep

end DB.Ordered

namespace Opened

variable {dir : Dir} {records : List Wal.Record} {ver : Version} {opts : Options} {db : DB}

/-- An open leaves L0 in the order of the numbers. -/
theorem files_zero (ho : Opened dir records ver opts db)
    (hnd : (ver.allFiles.map FileMeta.number).Nodup)
    (hnum : (ver.files 0).Pairwise fun f g => f.number < g.number) :
    db.version.files 0 = ver.files 0 := by
  refine (ho.files 0).eq_of_pairwise (fun f g hf hg h1 h2 => ?_) (ho.sorted 0)
    (hnum.imp fun hlt => le_of_lt hlt)
  exact List.inj_on_of_nodup_map hnd (Version.mem_allFiles.2 ⟨0, (ho.files 0).mem_iff.1 hf⟩)
    (Version.mem_allFiles.2 ⟨0, hg⟩) (le_antisymm h1 h2)

/-- And the other levels in the order of the keys. -/
theorem disjoint (ho : Opened dir records ver opts db) (hok : ∀ f ∈ ver.allFiles, f.Ok)
    (hdis : ver.Disjoint) : db.version.Disjoint := by
  intro l hl
  have hsorted := ho.sorted l
  rw [SortedLevel, if_pos hl] at hsorted
  refine increase_of_sorted (fun f hf => ?_) ?_ hsorted
  · exact hok f (Version.mem_allFiles.2 ⟨l, (ho.files l).mem_iff.1 hf⟩)
  · exact (List.Perm.pairwise_iff (fun h => h.symm) (ho.files l)).2 ((hdis l hl).imp Or.inl)

end Opened

namespace DB.Sound

variable {db db' : DB}

/-- Close and open again: the same files in the same order, the same entries. -/
theorem reopen (h : db.Sound) (hread : Manifest.ReaderOk db.version.toManifest) {opts : Options}
    {coins : List (List Bool)} (hstep : db.reopen opts coins = some db') : db'.Sound := by
  obtain ⟨-, -, -, -, hopen⟩ := DB.reopen_inv hstep
  obtain ⟨records, hrec, hR⟩ := h.wellFormed.recoverable h.manifest hread
  have ho := hR.opened hopen
  obtain ⟨hjob, hinf, -⟩ := ho.idle
  have hall := allFiles_perm ho.files
  have hmem : db'.memtable.entries.Perm db.memtable.entries := ho.mem.trans hrec.symm
  have htab : ∀ e, e ∈ db'.tables ↔ e ∈ db.tables := fun e =>
    (hall.flatMap_right FileMeta.contents).mem_iff
  have hl0 := ho.files_zero hR.nodup h.l0Numbers
  refine ⟨⟨hR.openable.wellFormed hopen, h.seqs.reopen h.wellFormed hrec ho, ?_, ?_, ?_,
    ho.disjoint h.wellFormed.okFiles h.disjoint, hl0 ▸ h.l0Numbers, ?_⟩, hR.manifestOk hopen⟩
  · have hp := entries_reopen h.wellFormed h.manifest hread hstep
    exact h.unique.subset fun e he => hp.mem_iff.1 he
  · intro x hx y hy
    exact h.onTop x (hmem.mem_iff.1 hx) y ((htab y).1 hy)
  · refine ⟨hl0 ▸ h.layered.l0, fun i j hij f hf g hg => ?_⟩
    exact h.layered.levels i j hij f ((ho.files i).mem_iff.1 hf) g ((ho.files j).mem_iff.1 hg)
  · simp [hjob]

/-- **Every step keeps the invariant.** -/
theorem step (h : db.Sound) {ev : Event} (hok : StepOk db ev) (hstep : db.step ev = some db') :
    db'.Sound := by
  by_cases hr : ∃ opts coins, ev = .reopen opts coins
  · obtain ⟨opts, coins, rfl⟩ := hr
    exact h.reopen hok.reader hstep
  · have hre : ∀ opts coins, ev ≠ .reopen opts coins := fun opts coins he => hr ⟨opts, coins, he⟩
    exact ⟨h.toOrdered.step hok.toOrderOk hre hstep,
      h.manifest.step h.wellFormed.stored hok.reader hre hok.fits.tables hstep⟩

end DB.Sound

theorem DB.entries_create (opts : Options) : (DB.create opts).entries = [] := by
  show Memtable.fresh.entries ++ [] = []
  rw [Memtable.entries_fresh]
  rfl

theorem DB.sound_create (opts : Options) : (DB.create opts).Sound where
  wellFormed := DB.wellFormed_create opts
  manifest := manifestOk_create opts
  seqs := ⟨by simp [DB.entries_create], by simp [DB.create], by simp [DB.create], by simp [DB.create]⟩
  unique := by simp [DB.entries_create, Newest.Unique]
  onTop := by
    intro x hx
    rw [show (DB.create opts).memtable = Memtable.fresh from rfl, Memtable.entries_fresh] at hx
    simp at hx
  layered := ⟨List.Pairwise.nil, fun i j _ f hf => by simp [DB.create, Version.empty] at hf⟩
  disjoint := fun _ _ => List.Pairwise.nil
  l0Numbers := List.Pairwise.nil
  round := by simp [DB.create]

theorem DB.sound_run {opts : Options} {evs : List Event} {db : DB}
    (hok : (DB.create opts).Meets StepOk evs) (hrun : (DB.create opts).run evs = some db) :
    db.Sound :=
  Steps.run_invariant (fun _ _ _ h hP hs => h.step hP hs) (DB.sound_create opts) hok hrun

/-- **Recency layering.** In every state of every run whose steps meet `StepOk`, the memtable
    has the newest entries of each key, then the files of L0 from the last to the first, then
    the levels in order. -/
theorem recency_run {opts : Options} {evs : List Event} {db : DB}
    (hok : (DB.create opts).Meets StepOk evs) (hrun : (DB.create opts).run evs = some db) :
    NotOlder db.memtable.entries db.tables ∧ db.version.Layered :=
  ⟨(DB.sound_run hok hrun).onTop, (DB.sound_run hok hrun).layered⟩

/-- Two flushed tables, merged into one, then another one and a newer value in the memtable. -/
def mergeRun : List Event :=
  callPut 1 1 ++ [.flush] ++ callPut 2 1 ++ [.flush, .compactCall, .pick plainQueue,
    .startWriter, .finishWriter, .commit] ++ callPut 1 2 ++ [.flush] ++ callPut 1 3

theorem recency_run_merge : ∃ db, (DB.create {}).run mergeRun = some db ∧
    NotOlder db.memtable.entries db.tables ∧ db.version.Layered := by
  obtain ⟨db, hdb⟩ := Option.isSome_iff_exists.1
    (show ((DB.create {}).run mergeRun).isSome = true by decide +kernel)
  have hok : (DB.create {}).Meets StepOk mergeRun := by decide +kernel
  exact ⟨db, hdb, recency_run hok hdb⟩

/-- The only file is merged alone, into L0, while a newer value of its key is flushed: the round
    was forced, and with `l1_max_bytes` at zero the merge before it armed it again. -/
def overtakingRun : List Event :=
  callPut 1 1 ++ [.flush] ++ callPut 2 1 ++ [.flush, .compactCall, .pick plainQueue,
    .startWriter, .finishWriter, .commit, .pick plainQueue] ++ callPut 1 2 ++
    [.flush, .startWriter, .finishWriter, .commit]

/-- The older value ends up in the later file of L0. -/
theorem recency_overtaken : ∃ db, (DB.create { l1MaxBytes := 0 }).run overtakingRun = some db ∧
    ¬ db.version.Layered := by
  have h : (((DB.create { l1MaxBytes := 0 }).run overtakingRun).map fun db =>
      decide ((db.version.files 0).Pairwise fun f g => NotOlder g.contents f.contents)) =
      some false := by decide +kernel
  obtain ⟨db, hdb, hl0⟩ := Option.map_eq_some_iff.1 h
  exact ⟨db, hdb, fun hlay => of_decide_eq_false hl0 hlay.l0⟩

/-! ## Rounds are invisible -/

/-- **A compaction round is invisible.** Whatever happens between the pick and the commit, the
    commit changes no value visible at a snapshot `s` that is at or above the oldest live
    snapshot of the pick, or above every entry of the version picked from; and it keeps every
    file that was flushed meanwhile. -/
theorem commit_keeps_visible {db db₁ db₂ db₃ : DB} {pq : SourceQueue} {evs : List Event}
    (hw : db.Stored) (hseqs : db.SeqsOk) (hunique : UniqueSeqs db.entries)
    (hmem : db.MemtableOnTop) (hlay : db.version.Layered) (hdis : db.version.Disjoint)
    (hhull : HullClear db.version (pickCompaction db.opts db.forceCompact db.version))
    (hpick : db.pick pq = some db₁) (hround : db₁.job ≠ none)
    (hrun : db₁.run evs = some db₂)
    (hmeets : db₁.Meets (fun db ev => db.NoWrap ev ∧ db.TablesFit ev ∧ ev ≠ .commit) evs)
    (hcommit : db₂.commit = some db₃) :
    (∀ k s, (db.oldestLiveSnapshot ≤ s ∨ ∀ e ∈ db.tables, e.seq ≤ s) →
      visible db₃.entries k s = visible db₂.entries k s) ∧
    ∀ fm ∈ db₂.version.allFiles, fm ∉ db.version.allFiles → fm ∈ db₃.version.allFiles := by
  have hpl := placed_pick ageOrder_notOlder hw.tables.level hw.okFiles hlay hdis hhull
  obtain ⟨j, stream, hj, hr, hstream, hin⟩ := roundOk_pick hw hmem hpl hhull hpick hround
  have hp : (Event.pick pq) ≠ .commit := by simp
  have hre : ∀ opts coins, (Event.pick pq) ≠ .reopen opts coins := by simp
  have hfit : db.TablesFit (.pick pq) := by simp [DB.TablesFit, DB.newTables]
  have hstart : DuringRound db.oldestLiveSnapshot stream j.job.inputs db₁ :=
    ⟨hw.step hre hfit hpick,
      hseqs.step hw (show db.NoWrap (.pick pq) from trivial) hfit hp hre hpick,
      uniqueSeqs_step hunique hseqs hw hfit hp hre hpick, j, hj, rfl, hr⟩
  have hend : DuringRound db.oldestLiveSnapshot stream j.job.inputs db₂ :=
    Steps.run_invariant (fun db ev db' h hP hs => h.step hP.1 hP.2.1 hP.2.2 hs) hstart hmeets hrun
  obtain ⟨j₂, hj₂, hin₂, hr₂⟩ := hend.round
  refine ⟨fun k s hs => ?_, fun fm hfm hnew => ?_⟩
  · exact visible_commit hend.stored hend.unique hcommit hj₂ hr₂
      (hs.imp_right fun h e he => h e (hstream e he))
  · obtain ⟨job, outputs, hj', ⟨-, rfl⟩ | ⟨-, rfl⟩⟩ := DB.commit_inv hcommit
    · exact hfm
    · obtain rfl := Option.some.inj (hj₂.symm.trans hj')
      have hout : fm ∉ job.inputs := fun hmem => hnew (hin fm (hin₂ ▸ hmem))
      exact (allFiles_commit db₂.version job outputs).mem_iff.2 (List.mem_append_left _
        (mem_remaining.2 ⟨hfm, (mem_remaining_iff hend.stored hj₂ hfm).2 hout⟩))

/-- Two flushed tables, and `compact` called. -/
def beforeMerge : List Event :=
  callPut 1 1 ++ [.flush] ++ callPut 2 1 ++ [.flush, .compactCall]

/-- A write and a flush while the tables are merged. -/
def duringMerge : List Event := callPut 1 2 ++ [.flush, .startWriter, .finishWriter]

theorem commit_keeps_visible_merge : ∃ db db₁ db₂ db₃, (DB.create {}).run beforeMerge = some db ∧
    db.pick plainQueue = some db₁ ∧ db₁.run duringMerge = some db₂ ∧ db₂.commit = some db₃ ∧
    ∀ k, visible db₃.entries k uint64Max = visible db₂.entries k uint64Max := by
  have hok : (DB.create {}).Meets StepOk beforeMerge := by decide +kernel
  have h : (((DB.create {}).run beforeMerge).bind fun db => (db.pick plainQueue).bind fun db₁ =>
      (db₁.run duringMerge).bind fun db₂ => db₂.commit.map fun _ =>
        (db.forceCompact, db₁.job.isSome,
          decide (db₁.Meets (fun db ev => db.NoWrap ev ∧ db.TablesFit ev ∧ ev ≠ .commit) duringMerge))) =
      some (true, true, true) := by decide +kernel
  obtain ⟨db, hrun, h⟩ := Option.bind_eq_some_iff.1 h
  obtain ⟨db₁, hpick, h⟩ := Option.bind_eq_some_iff.1 h
  obtain ⟨db₂, hmerge, h⟩ := Option.bind_eq_some_iff.1 h
  obtain ⟨db₃, hcommit, h⟩ := Option.map_eq_some_iff.1 h
  simp only [Prod.mk.injEq, decide_eq_true_eq] at h
  obtain ⟨hforce, hjob, hmeets⟩ := h
  have hs := DB.sound_run hok hrun
  have hull : HullClear db.version (pickCompaction db.opts db.forceCompact db.version) :=
    hullClear_pick (fun f hf => (hs.wellFormed.okFiles f hf).range_le) hs.disjoint
      fun hf => absurd (hforce.symm.trans hf) (by decide)
  refine ⟨db, db₁, db₂, db₃, hrun, hpick, hmerge, hcommit, fun k => ?_⟩
  exact (commit_keeps_visible hs.wellFormed.stored hs.seqs hs.unique hs.onTop_weak hs.layered hs.disjoint
    hull hpick (Option.isSome_iff_ne_none.1 hjob) hmerge hmeets hcommit).1 k uint64Max
    (Or.inl (le_uint64Max _))

/-! ## A merged block that no read takes -/

section LongBlock

variable (v : Bytes)

/-- The table of `put([1], v)`. -/
def longFile : FileMeta := ⟨1, 0, [1], [1], tableOf [⟨[1], v, false, 1⟩]⟩

/-- The table of `put([0], "")`. -/
def shortFile : FileMeta := ⟨2, 0, [0], [0], tableOf [⟨[0], [], false, 2⟩]⟩

/-- Both are flushed, and `compact` is called. -/
def longMerge : DB where
  dir := { wal := some [], manifest := some []
           sst := [(1, tableFile [⟨[1], v, false, 1⟩]), (2, tableFile [⟨[0], [], false, 2⟩])] }
  opts := {}
  memtable := Memtable.fresh
  version := ⟨fun l => if l = 0 then [longFile v, shortFile] else []⟩
  nextSst := 3
  nextSeq := 3
  forceCompact := true
  compactionPending := true
  waiting := 1

/-- The entries of the merged table. -/
def longChunk : List Entry := [⟨[0], [], false, 2⟩, ⟨[1], v, false, 1⟩]

theorem ok_shortFile : shortFile.contents = [⟨[0], [], false, 2⟩] ∧ shortFile.Ok := by
  have hc : shortFile.contents = [⟨[0], [], false, 2⟩] := by decide +kernel
  refine ⟨hc, ?_⟩
  constructor <;> rw [hc]
  · rfl
  · decide +kernel
  · decide
  · decide
  · simp
  · rfl
  · rfl

variable {v}

theorem ok_longFile (hv : v.length + 22 ≤ maxTransfer) :
    (longFile v).contents = [⟨[1], v, false, 1⟩] ∧ (longFile v).Ok := by
  have hmax : maxTransfer = 2147479552 := rfl
  have hfit : BlocksFit [⟨[1], v, false, 1⟩] := by
    intro b hb
    obtain rfl : b = [⟨[1], v, false, 1⟩] := List.mem_singleton.1 hb
    unfold BlockFits
    rw [encodeEntries_singleton, encodeEntry_length]
    show 17 + 1 + v.length + 4 ≤ maxTransfer
    omega
  have hfile : (tableFile [⟨[1], v, false, 1⟩]).length ≤ maxFileSize := by
    rw [tableFile_one_length, show maxFileSize = 9223372036854775807 from rfl]
    omega
  have hbuild := (@buildTable_iff 1 0 _ _ _).2 ⟨hfile, opens_one v 1, rfl, rfl⟩
  obtain ⟨-, -, -, hc, hok⟩ := buildTable_spec (List.cons_ne_nil _ _) (List.pairwise_singleton _ _)
    (fun e he => by rw [List.mem_singleton.1 he]; rfl) hfit hbuild
  exact ⟨hc, hok⟩

theorem ok_longMerge (hv : v.length + 22 ≤ maxTransfer) :
    ∀ fm ∈ [longFile v, shortFile], fm.Ok := by
  intro fm hfm
  rcases List.mem_pair.1 hfm with rfl | rfl
  · exact (ok_longFile hv).2
  · exact ok_shortFile.2

theorem allFiles_longMerge : (longMerge v).version.allFiles = [longFile v, shortFile] := rfl

theorem entries_longMerge (hv : v.length + 22 ≤ maxTransfer) :
    (longMerge v).entries = [⟨[1], v, false, 1⟩, ⟨[0], [], false, 2⟩] := by
  show Memtable.fresh.entries ++ (longMerge v).version.allFiles.flatMap FileMeta.contents = _
  rw [allFiles_longMerge, Memtable.entries_fresh, List.flatMap_cons, List.flatMap_cons,
    List.flatMap_nil, (ok_longFile hv).1, ok_shortFile.1]
  rfl

theorem ordered_longMerge (hv : v.length + 22 ≤ maxTransfer) : (longMerge v).Ordered := by
  have hl0 : ∀ {l : Level} {fm : FileMeta}, fm ∈ (longMerge v).version.files l → l = 0 := by
    intro l fm hfm
    by_contra hne
    rw [show (longMerge v).version.files l = [] from if_neg hne] at hfm
    exact absurd hfm List.not_mem_nil
  have htables : TablesOk (longMerge v).dir.sst (longMerge v).version 3 [] none := {
    sst_nodup := by simp [longMerge]
    sst_lt := by simp [longMerge]
    next_lt := by norm_num
    level := fun l fm hfm => by
      have hl := hl0 hfm
      subst hl
      rcases List.mem_pair.1 hfm with rfl | rfl <;> rfl
    ok := by
      rw [show Job.outputsOf none = [] from rfl, List.append_nil]
      exact ok_longMerge hv
    onDisk := by
      rw [show Job.outputsOf none = [] from rfl, List.append_nil]
      intro fm hfm
      rcases List.mem_pair.1 hfm with rfl | rfl
      · rw [(ok_longFile hv).1]
        exact List.mem_cons_self
      · rw [ok_shortFile.1]
        exact List.mem_cons_of_mem _ List.mem_cons_self
    outLevel := nofun
    nodup := by
      show [1, 2].Nodup
      decide
    used_lt := by
      show ∀ n ∈ [1, 2], n < 3
      decide
    used_kept := by simp
    doomed_lt := by simp
    writer_new := by simp [Job.writerNumbers]
    pieces := by simp [Job.pieces]
    inputs := by simp [Job.inputsOf] }
  have hmem : (longMerge v).memtable.entries = [] := Memtable.entries_fresh
  refine {
    wellFormed := ⟨htables, ⟨[], rfl, by simp, by rw [hmem]; exact .nil⟩, by simp [longMerge]⟩
    seqs := ⟨?_, by simp [longMerge], by simp [longMerge], by simp [longMerge]⟩
    unique := ?_
    onTop := by
      intro x hx
      rw [hmem] at hx
      exact absurd hx List.not_mem_nil
    layered := ⟨?_, fun i j hij f hf g hg => ?_⟩
    disjoint := fun l hl => ?_
    l0Numbers := ?_
    round := by simp [longMerge] }
  · rw [entries_longMerge hv]
    simp [longMerge]
  · rw [entries_longMerge hv]
    simp [UniqueSeqs, Newest.Unique]
  · show [longFile v, shortFile].Pairwise fun f g => NotOlder g.contents f.contents
    rw [List.pairwise_pair, (ok_longFile hv).1, ok_shortFile.1]
    simp [NotOlder]
  · exact absurd (hl0 hg) (ne_of_gt (lt_of_le_of_lt (Fin.zero_le i) hij))
  · have hl' : l ≠ 0 := ne_of_gt (lt_of_lt_of_le Fin.zero_lt_one hl)
    rw [show (longMerge v).version.files l = [] from if_neg hl']
    exact .nil
  · show [longFile v, shortFile].Pairwise fun f g => f.number < g.number
    rw [List.pairwise_pair]
    exact Nat.lt_succ_self 1

theorem length_longChunk : (encodeEntries (longChunk v)).length = v.length + 36 := by
  rw [show longChunk v = [⟨[0], [], false, 2⟩] ++ [⟨[1], v, false, 1⟩] from rfl,
    encodeEntries_append, List.length_append, encodeEntries_singleton, encodeEntries_singleton,
    encodeEntry_length, encodeEntry_length]
  show 17 + 1 + 0 + (17 + 1 + v.length) = _
  omega

/-- The merged table has one block. -/
theorem contentsOf_longChunk (hv : maxTransfer < v.length + 40) : contentsOf (longChunk v) = [] := by
  have hfit : ¬ BlockFits (longChunk v) := by
    unfold BlockFits
    rw [length_longChunk]
    omega
  rw [contentsOf, show blocksOf (longChunk v) = [longChunk v] from rfl, readable_cons, if_neg hfit]
  rfl

/-- The output. -/
def longOutput (v : Bytes) : FileMeta := ⟨3, 1, [0], [1], tableOf (longChunk v)⟩

theorem builds_longChunk (hv : v.length < 2 ^ 32) :
    DB.buildTable 3 1 (longChunk v) = some (tableFile (longChunk v), longOutput v) := by
  have hindex : (indexPart (longChunk v)).length = 21 := by
    rw [indexPart, show blocksOf (longChunk v) = [longChunk v] from rfl, indexOf, indexOf,
      List.flatMap_cons, List.flatMap_nil, List.append_nil, encodeIndexEntry_length]
    rfl
  have hbloom : (bloomOf (longChunk v)).serialize.length = 15 := by
    show ((Bloom.new 2 10).addAll [[0], [1]]).serialize.length = 15
    decide +kernel
  refine buildTable_iff.2 ⟨?_, ⟨by rw [hindex]; decide, by rw [hbloom]; decide⟩, rfl, rfl⟩
  rw [tableFile_length_eq, hindex, hbloom, blockPart,
    show blocksOf (longChunk v) = [longChunk v] from rfl, List.flatMap_cons, List.flatMap_nil,
    List.append_nil, blockBytes_length, length_longChunk, show maxFileSize = 9223372036854775807 from rfl,
    show kFooterSize = 40 from rfl]
  omega

theorem merge_longMerge (pq : SourceQueue) (hv : v.length + 22 ≤ maxTransfer) :
    mergeOutputs uint64Max true (2 * 1024 * 1024) (roundStream pq [longFile v, shortFile]) =
      [longChunk v] := by
  have hstream : roundStream pq [longFile v, shortFile] = longChunk v := by
    have hperm := mergeVersions_perm pq ([longFile v, shortFile].map FileMeta.contents)
    have hsorted : SortedLe (longChunk v) :=
      List.pairwise_pair.2 (Or.inl (show ([0] : Bytes) < [1] by decide))
    refine (SortedLe.eq_of_perm (by simp [UniqueSeqs, Newest.Unique, longChunk]) hsorted
      (sorted_roundStream (ok_longMerge hv)) (List.Perm.trans ?_ hperm.symm)).symm
    rw [List.map_cons, List.map_cons, List.map_nil, (ok_longFile hv).1, ok_shortFile.1]
    exact List.Perm.swap _ _ []
  have hkept : retain uint64Max true ⟨[], false⟩ (longChunk v) = longChunk v := rfl
  rw [hstream, mergeOutputs_eq, hkept, longChunk, splitFiles, if_neg (by decide), splitFiles]
  split <;> rfl

/-- The round is picked. -/
def longPicked (v : Bytes) : DB :=
  { longMerge v with
    compactionPending := false
    job := some ⟨⟨1, [longFile v, shortFile], true⟩, [longChunk v], none, []⟩ }

/-- The output is written. -/
def longWritten (v : Bytes) : DB :=
  { longPicked v with
    nextSst := 4
    dir := (longMerge v).dir.execAll [.writeTmp 3, .install 3 (tableFile (longChunk v))]
    job := some ⟨⟨1, [longFile v, shortFile], true⟩, [], none, [longOutput v]⟩ }

theorem pick_longMerge (pq : SourceQueue) (hv : v.length + 22 ≤ maxTransfer) :
    (longMerge v).pick pq = some (longPicked v) := by
  have hread : DB.readInputs (pickCompaction {} true (longMerge v).version).inputs =
      .ok ([longFile v, shortFile].map FileMeta.contents) := readInputs_eq (ok_longMerge hv)
  rw [longPicked, ← merge_longMerge pq hv, DB.pick, DB.pickWith, if_pos ⟨rfl, rfl⟩]
  refine (if_neg (List.cons_ne_nil _ _)).trans ?_
  simp only [longMerge] at hread ⊢
  rw [hread]
  rfl

theorem run_longPicked (hv : v.length < 2 ^ 32) :
    (longPicked v).run [.startWriter, .finishWriter] = some (longWritten v) := by
  have hstart : (longPicked v).step .startWriter = some { longPicked v with
      nextSst := 4
      dir := (longMerge v).dir.execAll [.writeTmp 3]
      job := some ⟨⟨1, [longFile v, shortFile], true⟩, [], some (3, longChunk v), []⟩ } := rfl
  rw [DB.run, Steps.run, hstart, Option.bind_some, Steps.run, DB.step, DB.finishWriter]
  simp only [builds_longChunk hv]
  rfl

theorem commit_longWritten : ∃ db₃, (longWritten v).commit = some db₃ ∧
    db₃.entries = (longOutput v).contents := by
  refine ⟨_, rfl, ?_⟩
  show Memtable.fresh.entries ++ [longOutput v].flatMap FileMeta.contents = _
  rw [Memtable.entries_fresh]
  simp

end LongBlock

/-- A value of 2147479530 bytes is the longest that one read takes. Merged with an empty one the
    block is longer, and the output of the round reads back as empty. -/
theorem commit_loses_value : ∃ db db₁ db₂ db₃ : DB, db.Ordered ∧
    HullClear db.version (pickCompaction db.opts db.forceCompact db.version) ∧
    db.pick plainQueue = some db₁ ∧ db₁.run [.startWriter, .finishWriter] = some db₂ ∧
    db₂.commit = some db₃ ∧
    visible db₂.entries [1] uint64Max = some (List.replicate 2147479530 0) ∧
    visible db₃.entries [1] uint64Max = none := by
  have hlen : (List.replicate 2147479530 (0 : UInt8)).length = 2147479530 := List.length_replicate
  generalize List.replicate 2147479530 (0 : UInt8) = v at hlen ⊢
  have hv : v.length + 22 ≤ maxTransfer := by rw [hlen]; decide
  have hs := ordered_longMerge hv
  obtain ⟨db₃, hcommit, hafter⟩ := @commit_longWritten v
  refine ⟨_, _, _, db₃, hs, ?_, pick_longMerge plainQueue hv, run_longPicked (by omega), hcommit, ?_,
    ?_⟩
  · exact hullClear_pick (fun f hf => (hs.wellFormed.okFiles f hf).range_le) hs.disjoint
      fun hf => absurd hf (by simp [longMerge])
  · rw [show (longWritten v).entries = (longMerge v).entries from rfl, entries_longMerge hv]
    rfl
  · have hbuild := builds_longChunk (show v.length < 2 ^ 32 by omega)
    rw [hafter, (buildTable_contents hbuild).2.2.2, contentsOf_longChunk (by rw [hlen]; decide)]
    rfl

end Keystone
