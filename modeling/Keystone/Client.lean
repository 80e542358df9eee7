/-
  One client against a map.

  The abstract store is the list of its writes: `lastValue` is the value of the last `put` of a
  key that no `del` follows. A single client makes one call at a time, and the compaction thread
  works in between; without snapshots, get and scan then agree with the list, in every run whose
  steps meet `ClientOk`.

  `ClientOk` leaves out what the code gets wrong: records and blocks their readers do not take, a
  flush that cuts a block between two versions of a key, a round of L0 that loses its key range
  because a file begins with the empty key, and a MANIFEST its reader cannot take; and the
  wrap-around of the counter. The other dangers of the engine, versions of a key split over two
  outputs and a forced round overtaken by a flush, cannot arise with one client and no snapshot,
  which is proved here.
-/
import Keystone.Visible

namespace Keystone

/-! ## The abstract store -/

/-- What a write leaves under its key. -/
def Op.result : Op → Option Bytes
  | put _ value => some value
  | del _ => none

/-- The value of the last `put` of `k`, if no `del` of `k` came after it. -/
def lastValue (ops : List Op) (k : Bytes) : Option Bytes :=
  (ops.filter fun op => op.key = k).getLast?.bind Op.result

theorem lastValue_concat (ops : List Op) (op : Op) (k : Bytes) :
    lastValue (ops ++ [op]) k = if op.key = k then op.result else lastValue ops k := by
  unfold lastValue
  rw [List.filter_append]
  by_cases h : op.key = k <;> simp [h]

/-- The entry of a write shows its result. -/
theorem Op.record_shown (op : Op) (seq : UInt64) : (op.record seq).entry.shown = op.result := by
  cases op <;> rfl

/-- The writes of a run, in order. -/
def writes (evs : List Event) : List Op := evs.flatMap Event.calls

theorem writes_concat (evs : List Event) (ev : Event) :
    writes (evs ++ [ev]) = writes evs ++ ev.calls := by
  simp [writes]

/-! ## One client -/

/-- No call of the client is in progress. -/
def DB.Idle (db : DB) : Prop := db.inflight = [] ∧ db.waiting = 0

instance (db : DB) : Decidable db.Idle := inferInstanceAs (Decidable (_ ∧ _))

/-- The steps of a single client without snapshots, and all steps of the compaction thread. A
    write is a batch of one; its last part is `maybeFlush`. -/
def ClientMay (db : DB) : Event → Prop
  | .assign ops => ops.length = 1 ∧ db.Idle
  | .flush => db.Idle
  | .maybeFlush => db.Idle
  | .compactCall => db.Idle
  | .getSnapshot => False
  | _ => True

/-- What a step needs so that reads stay right; a condition on the state before it. -/
structure ClientOk (db : DB) (ev : Event) : Prop where
  wrap : db.NoWrap ev
  fits : db.Fits ev
  reader : Manifest.ReaderOk db.version.toManifest
  /-- Of a flush; the tables of a round need no such condition. -/
  whole : ev.ofJob = false → db.WritesWhole ev
  range : db.RangeKept ev

instance (db : DB) (ev : Event) : Decidable (ClientMay db ev) :=
  match ev with
  | .assign ops => inferInstanceAs (Decidable (ops.length = 1 ∧ db.Idle))
  | .flush | .maybeFlush | .compactCall => inferInstanceAs (Decidable db.Idle)
  | .getSnapshot => instDecidableFalse
  | .apply _ | .releaseSnapshot _ | .compactWake | .pick _ | .startWriter | .finishWriter | .commit
  | .unlink _ | .reopen _ _ => instDecidableTrue

instance (db : DB) (ev : Event) : Decidable (ClientOk db ev) :=
  decidable_of_iff (db.NoWrap ev ∧ db.Fits ev ∧ Manifest.ReaderOk db.version.toManifest ∧
    (ev.ofJob = false → db.WritesWhole ev) ∧ db.RangeKept ev)
    ⟨fun h => ⟨h.1, h.2.1, h.2.2.1, h.2.2.2.1, h.2.2.2.2⟩,
      fun h => ⟨h.wrap, h.fits, h.reader, h.whole, h.range⟩⟩

/-- The invariant of a client's run after the events `past`. -/
structure DB.Serves (db : DB) (past : List Event) : Prop where
  readable : db.Readable
  snapshots : db.liveSnapshots = []
  forced : db.forceCompact = true → 0 < db.waiting
  /-- A round into L0 is a forced one: the client waits for it. -/
  l0Round : ∀ j, db.job = some j → j.job.outputLevel = 0 →
    0 < db.waiting ∧ ∀ f ∈ db.version.files 0, f ∈ j.job.inputs
  /-- A file still to be written has one version of each key. -/
  pieces : ∀ es ∈ Job.pieces db.job, es.Pairwise fun a b => a.key < b.key
  values : ∀ k, visible (db.inflight.map Wal.Record.entry ++ db.entries) k uint64Max =
    lastValue (writes past) k

/-! ## Rounds of a client's run -/

section Rounds

variable {db db' : DB}

/-- Without a snapshot a round keeps one version of each key. -/
theorem kept_keys (hw : db.WellFormed) (hs : db.liveSnapshots = []) (pq : SourceQueue) :
    (db.kept pq).Pairwise fun a b => a.key < b.key := by
  have hin := pickCompaction_inputs db.opts db.forceCompact db.version
  have hold : db.oldestLiveSnapshot = uint64Max := by
    rw [DB.oldestLiveSnapshot, hs]
    rfl
  exact retain_keys (sorted_roundStream fun f hf => hw.okFiles f (hin f hf))
    fun e _ => hold ▸ le_uint64Max e.seq

/-- And one in each file that it has still to finish. -/
theorem pieces_keys (hw : db.WellFormed) (hs : db.liveSnapshots = [])
    (h : ∀ es ∈ Job.pieces db.job, es.Pairwise fun a b => a.key < b.key) {ev : Event}
    (hr : ∀ opts coins, ev ≠ .reopen opts coins) (hstep : db.step ev = some db') :
    ∀ es ∈ Job.pieces db'.job, es.Pairwise fun a b => a.key < b.key := by
  cases hj' : db'.job with
  | none => simp [Job.pieces]
  | some j' =>
    rcases DB.round_before hr hstep hj' with ⟨pq, rfl, hj⟩ | ⟨j, hj, hc⟩
    · obtain ⟨-, ⟨-, rfl⟩ | ⟨-, rfl⟩⟩ := DB.pick_inv hw.stored hstep
      · exact absurd (hj.symm.trans hj') (Option.some_ne_none _).symm
      · obtain rfl := Option.some.inj hj'
        intro es hes
        refine (kept_keys hw hs pq).sublist ?_
        rw [DB.kept, ← flatten_mergeOutputs _ _ db.opts.targetFileSize.toNat]
        exact List.sublist_flatten_of_mem hes
    · obtain ⟨j₁, hj₁, -, -, hpieces, -⟩ := job_written hj hc hstep
      obtain rfl := Option.some.inj (hj₁.symm.trans hj')
      exact fun es hes => h es (by rw [hj]; exact hpieces es hes)

/-- Only a forced round goes to L0, and it takes every file. -/
theorem pick_l0 {opts : Options} {force : Bool} {ver : Version}
    (h0 : (pickCompaction opts force ver).outputLevel = 0)
    (hne : (pickCompaction opts force ver).inputs ≠ []) :
    force = true ∧ (pickCompaction opts force ver).inputs = ver.allFiles := by
  rcases pickCompaction_cases opts force ver with
    ⟨hf, hj⟩ | ⟨-, hj⟩ | ⟨level, next, pick, hl, -, hj⟩ | hj
  · rw [hj]
    refine ⟨hf, ?_⟩
    unfold forcedJob
    split <;> rfl
  · rw [hj] at h0
    exact absurd h0 (by simp [l0Job])
  · rw [hj] at h0
    have hnext : next = 0 := h0
    rw [hnext] at hl
    exact absurd hl ((by decide : ∀ l : Level, (l, (0 : Level)) ∉ overflowLevels) level)
  · rw [hj] at hne
    exact absurd rfl hne

/-- Who waits for a round changes only with the calls of `compact` and with a reopen. -/
theorem calls_step {ev : Event} (h : db.step ev = some db') :
    (db'.waiting = db.waiting ∧ db'.forceCompact = db.forceCompact) ∨
      ev = .compactCall ∨ ev = .compactWake ∨ ∃ opts coins, ev = .reopen opts coins := by
  have hf := DB.step_frame h
  cases ev with
  | compactCall => exact Or.inr (Or.inl rfl)
  | compactWake => exact Or.inr (Or.inr (Or.inl rfl))
  | reopen opts coins => exact Or.inr (Or.inr (Or.inr ⟨opts, coins, rfl⟩))
  | _ => exact Or.inl (hf.calls rfl)

end Rounds

namespace DB.Serves

variable {db db' : DB} {past : List Event} {ev : Event}

/-- For one client the conditions of the engine come down to `ClientOk`. -/
theorem readOk (h : db.Serves past) (hok : ClientOk db ev) : ReadOk db ev := by
  have hw := h.readable.ordered.wellFormed
  refine ⟨⟨⟨hok.wrap, hok.fits, hok.range, ?_, ?_⟩, ?_⟩, hok.reader⟩
  · cases ev with
    | pick pq => exact cutsBetweenKeys_of_keys (kept_keys hw h.snapshots pq)
    | _ => trivial
  · cases ev with
    | commit => exact fun j hj h0 => (h.l0Round j hj h0).2
    | _ => trivial
  · cases ev with
    | finishWriter =>
      intro es hes
      refine keysWhole_of_keys (h.pieces es (List.mem_append_left _ hes))
    | pick pq => simp [DB.WritesWhole, DB.newTables]
    | startWriter => simp [DB.WritesWhole, DB.newTables]
    | commit => simp [DB.WritesWhole, DB.newTables]
    | reopen opts coins => simp [DB.WritesWhole, DB.newTables]
    | _ => exact hok.whole rfl

/-- What a reopen leaves of the threads. -/
theorem idle_reopen (h : db.Serves past) {opts : Options} {coins : List (List Bool)}
    (hok : ClientOk db (.reopen opts coins)) (hstep : db.reopen opts coins = some db') :
    db'.job = none ∧ db'.inflight = [] ∧ db'.liveSnapshots = [] ∧ db'.forceCompact = false := by
  obtain ⟨-, -, -, -, hopen⟩ := DB.reopen_inv hstep
  obtain ⟨records, hrec, hR⟩ :=
    h.readable.sound.wellFormed.recoverable h.readable.manifest hok.reader
  obtain ⟨hjob, hinf, hsnap, -, hforce, -⟩ := (hR.opened hopen).idle
  exact ⟨hjob, hinf, hsnap, hforce⟩

theorem snapshots_step (h : db.Serves past) (hmay : ClientMay db ev) (hok : ClientOk db ev)
    (hstep : db.step ev = some db') : db'.liveSnapshots = [] := by
  by_cases hr : ∃ opts coins, ev = .reopen opts coins
  · obtain ⟨opts, coins, rfl⟩ := hr
    exact (h.idle_reopen hok hstep).2.2.1
  · rw [List.eq_nil_iff_forall_not_mem]
    intro s hs
    rcases Keystone.snapshots_step (fun opts coins he => hr ⟨opts, coins, he⟩) hstep s hs with
      hold | ⟨rfl, -⟩
    · rw [h.snapshots] at hold
      simp at hold
    · exact hmay

theorem forced_step (h : db.Serves past) (hok : ClientOk db ev)
    (hstep : db.step ev = some db') : db'.forceCompact = true → 0 < db'.waiting := by
  intro hforce
  rcases calls_step hstep with ⟨hw, hf⟩ | rfl | rfl | ⟨opts, coins, rfl⟩
  · rw [hw]
    exact h.forced (hf ▸ hforce)
  · obtain rfl := Option.some.inj hstep
    rcases DB.compactTurn_inv { db with forceCompact := true, waiting := db.waiting + 1 } with
      ⟨-, he⟩ | ⟨-, he⟩
    · exact absurd hforce (by rw [DB.compactCall, he]; exact Bool.false_ne_true)
    · rw [DB.compactCall, he]
      exact Nat.succ_pos _
  · obtain ⟨hwait, -, -, rfl⟩ := DB.compactWake_inv hstep
    rcases DB.compactTurn_inv db with ⟨-, he⟩ | ⟨-, he⟩
    · exact absurd hforce (by rw [he]; exact Bool.false_ne_true)
    · rw [he]
      exact hwait
  · rw [(h.idle_reopen hok hstep).2.2.2] at hforce
    exact absurd hforce (by decide)

/-- A round into L0 keeps the client waiting until it commits. -/
theorem l0Round_step (h : db.Serves past) (hmay : ClientMay db ev) (hok : ClientOk db ev)
    (hstep : db.step ev = some db') : ∀ j, db'.job = some j → j.job.outputLevel = 0 →
      0 < db'.waiting ∧ ∀ f ∈ db'.version.files 0, f ∈ j.job.inputs := by
  have hw := h.readable.sound.wellFormed
  intro j' hj' h0
  have hr : ∀ opts coins, ev ≠ .reopen opts coins := by
    rintro opts coins rfl
    exact nomatch (h.idle_reopen hok hstep).1.symm.trans hj'
  rcases DB.round_before hr hstep hj' with ⟨pq, rfl, hj⟩ | ⟨j, hj, hc⟩
  · obtain ⟨-, ⟨-, rfl⟩ | ⟨hne, rfl⟩⟩ := DB.pick_inv hw.stored hstep
    · exact nomatch hj.symm.trans hj'
    · obtain rfl := Option.some.inj hj'
      obtain ⟨hforce, hall⟩ := pick_l0 h0 hne
      refine ⟨h.forced hforce, fun f hf => ?_⟩
      show f ∈ (pickCompaction db.opts db.forceCompact db.version).inputs
      rw [hall]
      exact Version.mem_allFiles.2 ⟨0, hf⟩
  · obtain ⟨j₁, hj₁, hjob, -⟩ := job_moves hj hc hstep
    obtain rfl := Option.some.inj (hj₁.symm.trans hj')
    rw [hjob] at h0 ⊢
    obtain ⟨hwait, hin⟩ := h.l0Round j hj h0
    have hbusy : ¬ db.Idle := fun hidle => absurd hidle.2 (by omega)
    have hver : db'.version = db.version := by
      cases DB.step_kind hstep with
      | assign ops hev hstep => rw [(DB.assign_inv hstep).2.2]
      | apply coins hev hstep => rw [(DB.apply_inv hstep).2]
      | flush hev hnew hstep => rcases hev with rfl | rfl <;> exact absurd hmay hbusy
      | commit hev hstep => exact absurd hev hc
      | reopen opts coins hev hstep =>
        have hnone := (DB.reopen_inv hstep).2.1
        rw [hj] at hnone
        simp at hnone
      | quiet hev mem ver inflight seq => exact ver
    rw [hver]
    refine ⟨?_, hin⟩
    rcases calls_step hstep with ⟨hwait', -⟩ | rfl | rfl | ⟨opts, coins, rfl⟩
    · omega
    · exact absurd hmay hbusy
    · simp only [DB.step, DB.compactWake, hj] at hstep
      simp at hstep
    · have hnone := (DB.reopen_inv hstep).2.1
      rw [hj] at hnone
      simp at hnone

theorem pieces_step (h : db.Serves past) (hok : ClientOk db ev) (hstep : db.step ev = some db') :
    ∀ es ∈ Job.pieces db'.job, es.Pairwise fun a b => a.key < b.key := by
  by_cases hr : ∃ opts coins, ev = .reopen opts coins
  · obtain ⟨opts, coins, rfl⟩ := hr
    rw [(h.idle_reopen hok hstep).1]
    simp [Job.pieces]
  · exact pieces_keys h.readable.ordered.wellFormed h.snapshots h.pieces
      (fun opts coins he => hr ⟨opts, coins, he⟩) hstep

/-- What is visible with the write in flight: the write decides on its key. -/
theorem visible_inflight (h : db.Sound) (k : Bytes) :
    visible (db.inflight.map Wal.Record.entry ++ db.entries) k uint64Max =
      if newestEntry (db.inflight.map Wal.Record.entry) k uint64Max = none then
        visible db.entries k uint64Max
      else visible (db.inflight.map Wal.Record.entry) k uint64Max := by
  refine visible_append (fun a ha b hb => ?_) (uniqueSeqs_applied h.unique h.seqs (.apply []))
  exact le_of_lt (applied_newer h.seqs (show a ∈ db.applied (.apply []) from ha) hb)

/-- A step that leaves the write in flight and the visible values alone. -/
theorem values_same (h : db.Serves past) (hs' : db'.Sound) (hinf : db'.inflight = db.inflight)
    (hvis : ∀ k, visible db'.entries k uint64Max = visible db.entries k uint64Max)
    (hwr : ev.calls = []) (k : Bytes) :
    visible (db'.inflight.map Wal.Record.entry ++ db'.entries) k uint64Max =
      lastValue (writes (past ++ [ev])) k := by
  rw [writes_concat, hwr, List.append_nil, ← h.values, visible_inflight hs',
    visible_inflight h.readable.sound, hinf, hvis]

theorem values_assign (h : db.Serves past) {ops : List Op} (hlen : ops.length = 1)
    (hs' : db'.Sound) (hstep : db.assign ops = some db') (k : Bytes) :
    visible (db'.inflight.map Wal.Record.entry ++ db'.entries) k uint64Max =
      lastValue (writes (past ++ [.assign ops])) k := by
  obtain ⟨op, rfl⟩ := List.length_eq_one_iff.1 hlen
  rw [visible_inflight hs']
  obtain ⟨hnil, -, rfl⟩ := DB.assign_inv hstep
  have hvalues := h.values k
  rw [hnil] at hvalues
  show (if newestEntry [(op.record db.nextSeq).entry] k uint64Max = none then
    visible db.entries k uint64Max else visible [(op.record db.nextSeq).entry] k uint64Max) = _
  have hnew : newestEntry [(op.record db.nextSeq).entry] k uint64Max =
      if op.key = k then some (op.record db.nextSeq).entry else none := by
    rw [newestEntry_single, Wal.Record.entry_key]
    rfl
  have hvis : visible [(op.record db.nextSeq).entry] k uint64Max =
      if op.key = k then op.result else none := by
    rw [visible, hnew, ← op.record_shown db.nextSeq]
    split <;> rfl
  rw [writes_concat, show (Event.assign [op]).calls = [op] from rfl, lastValue_concat,
    ← hvalues, hnew, hvis]
  by_cases hk : op.key = k <;> simp [hk]

theorem values_step (h : db.Serves past) (hmay : ClientMay db ev) (hok : ReadOk db ev)
    (hs' : db'.Sound) (hstep : db.step ev = some db') (k : Bytes) :
    visible (db'.inflight.map Wal.Record.entry ++ db'.entries) k uint64Max =
      lastValue (writes (past ++ [ev])) k := by
  have hs := h.readable.sound
  have hvis := visible_step hs hok.step hstep (Or.inr rfl)
  cases DB.step_kind hstep with
  | assign ops hev hstep =>
    subst hev
    exact h.values_assign hmay.1 hs' hstep k
  | apply coins hev hstep =>
    subst hev
    obtain ⟨-, hdb'⟩ := DB.apply_inv hstep
    have hinf : db'.inflight = [] := by rw [hdb']
    rw [hinf, writes_concat, show (Event.apply coins).calls = [] from rfl, List.append_nil,
      ← h.values]
    exact hvis k
  | flush hev hnew hstep =>
    have hinf : db'.inflight = db.inflight := by
      rcases DB.flush_shape hstep with ⟨-, rfl⟩ | ⟨-, -, file, fm, -, rfl⟩ <;> rfl
    rcases hev with rfl | rfl
    · exact h.values_same hs' hinf hvis rfl k
    · exact h.values_same hs' hinf hvis rfl k
  | commit hev hstep =>
    subst hev
    obtain ⟨job, outputs, -, ⟨-, hdb'⟩ | ⟨-, hdb'⟩⟩ := DB.commit_inv hstep
    · exact h.values_same hs' (by rw [hdb']) hvis rfl k
    · exact h.values_same hs' (by rw [hdb']) hvis rfl k
  | reopen opts coins hev hstep =>
    subst hev
    have hinf := (h.idle_reopen ⟨hok.wrap, hok.fits, hok.reader, nofun, trivial⟩ hstep).2.1
    exact h.values_same hs' (hinf.trans (DB.reopen_inv hstep).1.symm) hvis rfl k
  | quiet hev mem ver inflight seq =>
    rw [hev] at hvis
    refine h.values_same hs' inflight hvis ?_ k
    cases ev with
    | assign ops =>
      obtain ⟨hnil, hne, rfl⟩ := DB.assign_inv hstep
      obtain ⟨op, rfl⟩ := List.length_eq_one_iff.1 hmay.1
      rw [hnil] at inflight
      exact absurd inflight (by simp [batchRecords])
    | _ => rfl

/-- **Every step of a client's run** keeps the store in agreement with the writes. -/
theorem step (h : db.Serves past) (hP : ClientMay db ev ∧ ClientOk db ev)
    (hstep : db.step ev = some db') : db'.Serves (past ++ [ev]) := by
  have hok := h.readOk hP.2
  have hread := h.readable.step hok hstep
  exact ⟨hread, h.snapshots_step hP.1 hP.2 hstep, h.forced_step hP.2 hstep,
    h.l0Round_step hP.1 hP.2 hstep, h.pieces_step hP.2 hstep,
    h.values_step hP.1 hok hread.sound hstep⟩

theorem create (opts : Options) : (DB.create opts).Serves [] where
  readable := .create opts
  snapshots := rfl
  forced := by simp [DB.create]
  l0Round := by simp [DB.create]
  pieces := by simp [DB.create, Job.pieces]
  values := by
    intro k
    rw [DB.entries_create]
    rfl

end DB.Serves

/-! ## Reads agree with the writes -/

/-- **Reads agree with the writes.** In every run of one client without snapshots whose steps
    meet `ClientOk`, when no write is in progress: `get` returns the last value put and not
    deleted, and `scan` emits exactly those of its range, in increasing key order. -/
theorem client_reads {opts : Options} {evs : List Event} {db : DB}
    (hmay : (DB.create opts).Meets ClientMay evs) (hok : (DB.create opts).Meets ClientOk evs)
    (hrun : (DB.create opts).run evs = some db) (hdone : db.inflight = []) :
    (∀ k, db.get k = .ok (lastValue (writes evs) k)) ∧
    ∀ pq start last, ∃ out, db.scan pq start last = .ok out ∧
      (out.Pairwise fun a b => a.1 < b.1) ∧
      ∀ k v, (k, v) ∈ out ↔ start ≤ k ∧ k ≤ last ∧ lastValue (writes evs) k = some v := by
  have h : db.Serves ([] ++ evs) := Steps.run_trace (fun db past ev db' h hP hs => h.step hP hs)
    (DB.Serves.create opts) (Steps.Meets.and hmay hok) hrun
  have hvalues : ∀ k, visible db.entries k uint64Max = lastValue (writes evs) k := by
    intro k
    have hv := h.values k
    rwa [hdone] at hv
  refine ⟨fun k => ?_, fun pq start last => ?_⟩
  · rw [DB.get, DB.getImpl_eq h.readable.ordered h.readable.whole.live, hvalues]
  · obtain ⟨out, hout, hinc, hmem⟩ :=
      DB.scanImpl_spec h.readable.ordered h.readable.whole.live pq start last uint64Max
    refine ⟨out, hout, hinc, fun k v => ?_⟩
    rw [hmem, hvalues]

/-- A whole round with one output. -/
def oneRound : List Event := [.pick plainQueue, .startWriter, .finishWriter, .commit]

/-- Writes, flushes, a round, a deletion, a forced round and a reopen. -/
def clientRun : List Event :=
  writeCall (putByte 1 1) ++ [.flush] ++ writeCall (putByte 2 1) ++ [.flush] ++ oneRound ++
    [.unlink 1, .unlink 2] ++ writeCall (.del [2]) ++ [.flush, .compactCall] ++ oneRound ++
    [.compactWake, .unlink 3, .unlink 4] ++ writeCall (putByte 1 2) ++ [.reopen {} []]

theorem client_reads_reopen : ∃ db, (DB.create { compactionTrigger := 2 }).run clientRun = some db ∧
    db.get [1] = .ok (some [2]) ∧ db.get [2] = .ok none ∧
    ∃ out, db.scan plainQueue [] [9] = .ok out ∧ ([1], [2]) ∈ out := by
  have hmay : (DB.create { compactionTrigger := 2 }).Meets ClientMay clientRun := by decide +kernel
  have hok : (DB.create { compactionTrigger := 2 }).Meets ClientOk clientRun := by decide +kernel
  have hrun : (((DB.create { compactionTrigger := 2 }).run clientRun).map DB.inflight) = some [] := by
    decide +kernel
  obtain ⟨db, hdb, hdone⟩ := Option.map_eq_some_iff.1 hrun
  obtain ⟨hget, hscan⟩ := client_reads hmay hok hdb hdone
  obtain ⟨out, hout, -, hmem⟩ := hscan plainQueue [] [9]
  refine ⟨db, hdb, hget [1], hget [2], out, hout, (hmem [1] [2]).2 ⟨by decide, by decide, ?_⟩⟩
  rfl

/-- A file of L0 begins with the empty key, the next one does not: the round takes the range of
    the second one only and leaves out the table that a tombstone hides. -/
def lostRangeRun : List Event :=
  writeCall (putByte 1 1) ++ [.flush] ++ writeCall (putByte 2 1) ++ [.flush] ++ oneRound ++
    writeCall (.put [] [1]) ++ writeCall (.del [1]) ++ [.flush] ++
    writeCall (putByte 7 1) ++ [.flush] ++ oneRound

/-- The deleted key is back. -/
theorem client_reads_deleted : ∃ db,
    (DB.create { compactionTrigger := 2 }).Meets ClientMay lostRangeRun ∧
    (DB.create { compactionTrigger := 2 }).run lostRangeRun = some db ∧ db.inflight = [] ∧
    lastValue (writes lostRangeRun) [1] = none ∧ db.get [1] = .ok (some [1]) := by
  have hmay : (DB.create { compactionTrigger := 2 }).Meets ClientMay lostRangeRun := by
    decide +kernel
  have hrun : (((DB.create { compactionTrigger := 2 }).run lostRangeRun).map fun db =>
      (db.inflight, (db.get [1]).toOption)) = some ([], some (some [1])) := by decide +kernel
  obtain ⟨db, hdb, hres⟩ := Option.map_eq_some_iff.1 hrun
  obtain ⟨hdone, hget⟩ := Prod.mk.inj hres
  exact ⟨db, hmay, hdb, hdone, rfl, eq_ok_of_toOption hget⟩

end Keystone
