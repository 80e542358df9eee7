/-
  What readers see over whole runs.

  `DB.Readable` adds to the invariant of the engine that no table splits a key over two blocks;
  in such a state reads are exact. It is kept by every step that meets `ReadOk`. `DB.Exact` and
  `ExactOk` are the same without the MANIFEST, within the life of one process.

  `visible_step`: at the present and at every live snapshot, a step changes what is visible only
  by the entries it applies. Flushes, rounds and reopens are invisible.
-/
import Keystone.Read

namespace Keystone

/-! ## Tables with whole keys -/

instance (blocks : List (List Entry)) : Decidable (KeysWhole blocks) :=
  inferInstanceAs (Decidable (blocks.IsChain _))

/-- The tables the step writes split no key over two blocks. -/
def DB.WritesWhole (db : DB) (ev : Event) : Prop := ∀ es ∈ db.newTables ev, KeysWhole (blocksOf es)

instance (db : DB) (ev : Event) : Decidable (db.WritesWhole ev) :=
  inferInstanceAs (Decidable (∀ es ∈ db.newTables ev, KeysWhole (blocksOf es)))

/-- A step that keeps the layers in order and splits no key over two blocks. -/
structure ExactOk (db : DB) (ev : Event) : Prop extends OrderOk db ev where
  whole : db.WritesWhole ev

/-- And keeps the MANIFEST readable. -/
structure ReadOk (db : DB) (ev : Event) : Prop extends ExactOk db ev where
  reader : Manifest.ReaderOk db.version.toManifest

theorem ReadOk.step {db : DB} {ev : Event} (h : ReadOk db ev) : StepOk db ev :=
  ⟨h.toOrderOk, h.reader⟩

instance (db : DB) (ev : Event) : Decidable (ExactOk db ev) :=
  decidable_of_iff (OrderOk db ev ∧ db.WritesWhole ev)
    ⟨fun h => ⟨h.1, h.2⟩, fun h => ⟨h.toOrderOk, h.whole⟩⟩

instance (db : DB) (ev : Event) : Decidable (ReadOk db ev) :=
  decidable_of_iff (ExactOk db ev ∧ Manifest.ReaderOk db.version.toManifest)
    ⟨fun h => ⟨h.1, h.2⟩, fun h => ⟨h.toExactOk, h.reader⟩⟩

/-- No live table, and no finished output of the round in progress, splits a key. -/
structure DB.Whole (db : DB) : Prop where
  live : db.WholeTables
  outputs : ∀ f ∈ Job.outputsOf db.job, KeysWhole (blocksOf f.contents)

/-- An ordered state in which reads are exact. -/
structure DB.Exact (db : DB) : Prop where
  ordered : db.Ordered
  whole : db.Whole

/-- And whose MANIFEST says so. -/
structure DB.Readable (db : DB) : Prop extends DB.Exact db where
  manifest : ManifestOk db.dir.manifest db.version

theorem DB.Readable.sound {db : DB} (h : db.Readable) : db.Sound := ⟨h.ordered, h.manifest⟩

theorem DB.Readable.create (opts : Options) : (DB.create opts).Readable where
  ordered := (DB.sound_create opts).toOrdered
  whole := by
    refine ⟨fun f hf => ?_, by simp [DB.create, Job.outputsOf]⟩
    obtain ⟨l, hl⟩ := Version.mem_allFiles.1 hf
    simp [DB.create, Version.empty] at hl
  manifest := (DB.sound_create opts).manifest

section Tables

variable {db db' : DB}

/-- The live tables after a step. -/
theorem DB.Whole.live_step (h : db.Whole) (hw : db.Stored) {ev : Event} (hfit : db.TablesFit ev)
    (hok : db.WritesWhole ev) (hr : ∀ opts coins, ev ≠ .reopen opts coins)
    (hstep : db.step ev = some db') : db'.WholeTables := by
  cases DB.step_kind hstep with
  | assign ops hev hstep =>
    obtain ⟨-, -, rfl⟩ := DB.assign_inv hstep
    exact h.live
  | apply coins hev hstep =>
    obtain ⟨-, rfl⟩ := DB.apply_inv hstep
    exact h.live
  | flush hev hnew hflush =>
    rcases DB.flush_inv hw (hfit.of_new hnew) hflush with
      ⟨-, rfl⟩ | ⟨hne, fm, -, -, -, hcont, rfl⟩
    · exact h.live
    · intro f hf
      rcases List.mem_append.1 ((allFiles_pushL0 db.version fm).mem_iff.1 hf) with hf | hf
      · exact h.live f hf
      · rw [List.mem_singleton.1 hf, hcont]
        exact hok _ (hnew ▸ List.mem_singleton.2 rfl)
  | commit hev hstep =>
    obtain ⟨job, outputs, hj, ⟨-, rfl⟩ | ⟨-, rfl⟩⟩ := DB.commit_inv hstep
    · exact h.live
    · intro f hf
      rcases List.mem_append.1 ((allFiles_commit db.version job outputs).mem_iff.1 hf) with hf | hf
      · exact h.live f (mem_remaining.1 hf).1
      · exact h.outputs f (by rw [hj]; exact hf)
  | reopen opts coins hev hstep => exact absurd hev (hr opts coins)
  | quiet hev mem ver inflight seq =>
    intro f hf
    exact h.live f (ver ▸ hf)

/-- The finished outputs after a step. -/
theorem DB.Whole.outputs_step (h : db.Whole) (hw : db.Stored) {ev : Event} (hfit : db.TablesFit ev)
    (hok : db.WritesWhole ev) (hr : ∀ opts coins, ev ≠ .reopen opts coins)
    (hstep : db.step ev = some db') :
    ∀ f ∈ Job.outputsOf db'.job, KeysWhole (blocksOf f.contents) := by
  cases hj' : db'.job with
  | none => simp [Job.outputsOf]
  | some j' =>
    rcases DB.round_before hr hstep hj' with ⟨pq, rfl, hj⟩ | ⟨j, hj, hc⟩
    · obtain ⟨-, -, ⟨-, rfl⟩ | ⟨-, sources, -, rfl⟩⟩ := DB.pick_shape hstep
      · exact absurd (hj.symm.trans hj') (Option.some_ne_none _).symm
      · obtain rfl := Option.some.inj hj'
        simp [Job.outputsOf]
    · have hold : ∀ f ∈ j.outputs, KeysWhole (blocksOf f.contents) := fun f hf =>
        h.outputs f (by rw [hj]; exact hf)
      obtain ⟨j₁, hj₁, -, -, ⟨hout, -⟩ | ⟨chunk, fm, hnew, hcont, hpieces, hout⟩⟩ :=
        job_moves hj hc hstep
      · obtain rfl := Option.some.inj (hj₁.symm.trans hj')
        rw [Job.outputsOf, Option.map_some, Option.getD_some, hout]
        exact hold
      · obtain rfl := Option.some.inj (hj₁.symm.trans hj')
        have hchunk := hw.tables.pieces chunk (by rw [hj, hpieces]; exact List.mem_cons_self)
        rw [contentsOf_eq hchunk.storable (hfit.of_new hnew)] at hcont
        intro f hf
        rw [Job.outputsOf, Option.map_some, Option.getD_some, hout] at hf
        rcases List.mem_append.1 hf with hf | hf
        · exact hold f hf
        · rw [List.mem_singleton.1 hf, hcont]
          exact hok _ (hnew ▸ List.mem_singleton.2 rfl)

theorem DB.Whole.step (h : db.Whole) (hw : db.Stored) {ev : Event} (hfit : db.TablesFit ev)
    (hok : db.WritesWhole ev) (hr : ∀ opts coins, ev ≠ .reopen opts coins)
    (hstep : db.step ev = some db') : db'.Whole :=
  ⟨h.live_step hw hfit hok hr hstep, h.outputs_step hw hfit hok hr hstep⟩

end Tables

namespace DB.Exact

variable {db db' : DB}

/-- **Every step within the life of the process keeps reads exact.** -/
theorem step (h : db.Exact) {ev : Event} (hok : ExactOk db ev)
    (hr : ∀ opts coins, ev ≠ .reopen opts coins) (hstep : db.step ev = some db') : db'.Exact :=
  ⟨h.ordered.step hok.toOrderOk hr hstep,
    h.whole.step h.ordered.wellFormed.stored hok.fits.tables hok.whole hr hstep⟩

end DB.Exact

namespace DB.Readable

variable {db db' : DB}

theorem reopen (h : db.Readable) (hread : Manifest.ReaderOk db.version.toManifest) {opts : Options}
    {coins : List (List Bool)} (hstep : db.reopen opts coins = some db') : db'.Readable := by
  have hs := h.sound.reopen hread hstep
  obtain ⟨-, -, -, -, hopen⟩ := DB.reopen_inv hstep
  obtain ⟨records, hrec, hR⟩ := h.ordered.wellFormed.recoverable h.manifest hread
  refine ⟨⟨hs.toOrdered, fun f hf => ?_, ?_⟩, hs.manifest⟩
  · exact h.whole.live f ((allFiles_perm (hR.opened hopen).files).mem_iff.1 hf)
  · rw [(hR.opened hopen).idle.1]
    simp [Job.outputsOf]

/-- **Every step keeps reads exact.** -/
theorem step (h : db.Readable) {ev : Event} (hok : ReadOk db ev)
    (hstep : db.step ev = some db') : db'.Readable := by
  by_cases hr : ∃ opts coins, ev = .reopen opts coins
  · obtain ⟨opts, coins, rfl⟩ := hr
    exact h.reopen hok.reader hstep
  · have hexact := h.toExact.step hok.toExactOk (fun opts coins he => hr ⟨opts, coins, he⟩) hstep
    exact ⟨hexact, (h.sound.step hok.step hstep).manifest⟩

end DB.Readable

/-! ## What is visible -/

theorem newestEntry_single (e : Entry) (k : Bytes) :
    newestEntry [e] k uint64Max = if e.key = k then some e else none := by
  rw [newestEntry_eq_find (List.pairwise_singleton _ _)]
  by_cases hk : e.key = k <;> simp [hk, le_uint64Max]

/-- Where the parts of a set are newer on one side, a hit there decides. -/
theorem visible_append {l r : List Entry} {k : Bytes} {s : UInt64}
    (hn : ∀ a ∈ l, ∀ b ∈ r, b.seq ≤ a.seq) (hu : UniqueSeqs (l ++ r)) :
    visible (l ++ r) k s =
      if newestEntry l k s = none then visible r k s else visible l k s := by
  have h : newestEntry (l ++ r) k s = (newestEntry l k s).or (newestEntry r k s) :=
    Newest.newest_append_of_newer (fun a ha b hb _ _ => hn a ha b hb) hu
  rw [visible, h, visible, visible]
  cases newestEntry l k s <;> simp

/-- **What a step changes for readers**: at the present and at every live snapshot nothing but
    the entries it applies. -/
theorem visible_step_of_round {db db' : DB} (hw : db.WellFormed) (hseqs : db.SeqsOk)
    (hu : UniqueSeqs db.entries) (hround : ∀ j, db.job = some j → RoundRuns db j) {ev : Event}
    (hfit : db.TablesFit ev) (hr : ∀ opts coins, ev ≠ .reopen opts coins) (hstep : db.step ev = some db') {s : UInt64}
    (hs : s ∈ db.liveSnapshots ∨ s = uint64Max) (k : Bytes) :
    visible db'.entries k s = visible (db.applied ev ++ db.entries) k s := by
  have hu' := uniqueSeqs_applied hu hseqs ev
  by_cases hc : ev = .commit
  · subst hc
    obtain ⟨job, outputs, hj, -⟩ := DB.commit_inv hstep
    obtain ⟨oldestSnap, stream, hok, hsnap⟩ := (hround _ hj).ok
    refine visible_commit hw.stored hu hstep hj hok ?_
    rcases hs with hs | rfl
    · exact hsnap s hs
    · exact Or.inr fun e _ => le_uint64Max e.seq
  · have hp := entries_step hw.stored hfit hstep hc hr
    exact (visible_congr hu' (fun e => hp.mem_iff.symm) k s).symm

theorem DB.Ordered.visible_step {db db' : DB} (h : db.Ordered) {ev : Event}
    (hfit : db.TablesFit ev) (hr : ∀ opts coins, ev ≠ .reopen opts coins) (hstep : db.step ev = some db') {s : UInt64}
    (hs : s ∈ db.liveSnapshots ∨ s = uint64Max) (k : Bytes) :
    visible db'.entries k s = visible (db.applied ev ++ db.entries) k s :=
  visible_step_of_round h.wellFormed h.seqs h.unique (fun j hj => (h.round j hj).toRoundRuns) hfit hr
    hstep hs k

/-- The same over the whole life of the directory. -/
theorem visible_step {db db' : DB} (h : db.Sound) {ev : Event} (hok : StepOk db ev)
    (hstep : db.step ev = some db') {s : UInt64} (hs : s ∈ db.liveSnapshots ∨ s = uint64Max)
    (k : Bytes) : visible db'.entries k s = visible (db.applied ev ++ db.entries) k s := by
  by_cases hr : ∃ opts coins, ev = .reopen opts coins
  · obtain ⟨opts, coins, rfl⟩ := hr
    have hp := entries_reopen h.wellFormed h.manifest hok.reader hstep
    exact (visible_congr h.unique (fun e => hp.mem_iff.symm) k s).symm
  · exact h.toOrdered.visible_step hok.fits.tables (fun opts coins he => hr ⟨opts, coins, he⟩) hstep hs k

end Keystone
