/-
  A flush that fails.

  `DB::flush` has no handler: an exception from one of its system calls leaves what was done so
  far, on disk and in memory. `FlushFault` lists the calls that raise. A failing sync is not among
  them, since `durable_sync` returns nothing. The exception goes to the caller. That is a client,
  or `maybe_flush` in the leader of a batch; from there it leaves `DB::write` before the batch is
  taken off `write_queue_`, whose front then points to a request that is gone.

  Model (read this before the theorems). A `Process` is the store, whether `wal_` is set and
  whether `write_queue_` is free of such requests. Without the log `append_batch` has nothing to
  be called on, and with a lost request at the front no call becomes leader: such a step is not
  there. A call whose own request happens to lie at the address of the lost one is left out; it
  would take the dangling pointer for its own (`Failing.reuse`).

  Proved, for every state reached by calls, engine steps, reopens, crashes and client flushes that
  failed before the MANIFEST, within the limits of the log, of the tables and of the MANIFEST
  (`flush_failure_atomic`):
  * in a client, up to the truncation of the log: every read and every later call is as if the
    flush had not been tried;
  * in a client, before the first byte of the snapshot: a reopen finds every write;
  * with part of the snapshot written: the next flush succeeds and clears the log, and unless the
    torn bytes and its snapshot pass as a record, a reopen finds the entries of the old tables and
    nothing of the memtable;
  * in a leader, or from the truncation of the log on: the next put fails.
-/
import Keystone.Renumber
import Keystone.TornManifest

namespace Keystone

/-! ## The failing calls -/

/-- The call of `DB::flush` that fails. -/
inductive FlushFault where
  /-- `open` of the temporary file. -/
  | openTmp
  | writeTmp
  | rename
  /-- `SSTable::open`. -/
  | openTable
  /-- `append_snapshot`, with that many bytes written. -/
  | appendManifest (written : Nat)
  | resizeWal
  | openWal
  deriving DecidableEq, Repr

/-- The failure comes before `wal_.reset()`. -/
def FlushFault.keepsLog : FlushFault → Bool
  | .resizeWal => false
  | .openWal => false
  | _ => true

/-- How much of the snapshot is written. -/
def FlushFault.torn : FlushFault → Nat
  | .appendManifest written => written
  | _ => 0

/-- No byte of the snapshot is written. -/
def FlushFault.BeforeManifest (fault : FlushFault) : Prop :=
  fault.keepsLog = true ∧ fault.torn = 0

instance (fault : FlushFault) : Decidable fault.BeforeManifest :=
  inferInstanceAs (Decidable (_ ∧ _))

/-- Who called `DB::flush`: a client, or `maybe_flush` in the leader of a batch. -/
inductive FlushCaller where
  | client
  | leader
  deriving DecidableEq, Repr

/-- The store; whether `wal_` is set; whether every pointer of `write_queue_` is of a call still
    inside `DB::write`. -/
structure Process where
  db : DB
  wal : Bool := true
  queue : Bool := true

/-- What can happen to a process: a step, a crash and an open, or a flush that fails. -/
inductive FaultEvent where
  | live (ev : LifeEvent)
  | fail (caller : FlushCaller) (fault : FlushFault)

/-- Does the step take requests off the queue? -/
def LifeEvent.leads (ev : LifeEvent) : Bool := ev.event matches .assign _

/-- Does the step append to the log? -/
def LifeEvent.appends (ev : LifeEvent) : Bool := ev.event matches .apply _

/-- Does the process start anew? -/
def LifeEvent.restarts : LifeEvent → Bool
  | .run (.reopen _ _) => true
  | .run _ => false
  | .crash _ => true

namespace Process

def create (opts : Options) : Process := { db := DB.create opts }

/-- What a flush leaves that fails at `fault`; `none` if it does not get there. -/
def failFlush (p : Process) (fault : FlushFault) : Option Process :=
  if p.db.memtable.approxBytes = 0 then none
  else do
    let (number, db) ← p.db.allocSst
    match fault with
    | .openTmp => some { p with db := db }
    | .writeTmp => some { p with db := { db with dir := db.dir.execAll [.writeTmp number] } }
    | .rename => do
      let _ ← writeTable db.memtable.entries
      some { p with db := { db with dir := db.dir.execAll [.writeTmp number] } }
    | .openTable => do
      let file ← writeTable db.memtable.entries
      some { p with
        db := { db with dir := db.dir.execAll [.writeTmp number, .install number file] } }
    | .appendManifest written => do
      let (file, fm) ← DB.buildTable number 0 db.memtable.entries
      let snapshot := Manifest.encodeSnapshot (db.version.pushL0 fm).toManifest
      if written < snapshot.length then
        let dir := db.dir.execAll [.writeTmp number, .install number file]
        some { p with db := { db with dir := { dir with
          manifest := some (dir.manifest.getD [] ++ snapshot.take written) } } }
      else none
    -- `wal_.reset()` is through, and so is `current_version_ = new_ver`
    | .resizeWal => do
      let (file, fm) ← DB.buildTable number 0 db.memtable.entries
      let ver := db.version.pushL0 fm
      some { p with
        db := { db with dir := db.dir.execAll ((DB.flushOps number file ver).take 3), version := ver }
        wal := false }
    | .openWal => do
      let (file, fm) ← DB.buildTable number 0 db.memtable.entries
      let ver := db.version.pushL0 fm
      some { p with
        db := { db with dir := db.dir.execAll ((DB.flushOps number file ver).take 4), version := ver }
        wal := false }

/-- A leader gets into `DB::flush` over the threshold, and leaves its batch in the queue. -/
def fail (p : Process) (caller : FlushCaller) (fault : FlushFault) : Option Process :=
  match caller with
  | .client => p.failFlush fault
  | .leader =>
    if p.queue ∧ p.db.opts.flushThresholdBytes.toNat ≤ p.db.memtable.approxBytes then
      (p.failFlush fault).map fun p => { p with queue := false }
    else none

def step (p : Process) : FaultEvent → Option Process
  | .live ev =>
    if (ev.leads && !p.queue) || (ev.appends && !p.wal) then none
    else (p.db.live ev).map fun db => {
      db := db
      wal := p.wal || ev.restarts || p.db.flushes ev.event
      queue := p.queue || ev.restarts }
  | .fail caller fault => p.fail caller fault

/-- Calls and steps of the engine. -/
def calls (p : Process) (evs : List Event) : Option Process :=
  Steps.run step p (evs.map fun ev => .live (.run ev))

end Process

/-- Only failures in a client, before the snapshot. -/
def FaultEvent.Clean : FaultEvent → Prop
  | .live _ => True
  | .fail caller fault => caller = .client ∧ fault.BeforeManifest

instance (ev : FaultEvent) : Decidable ev.Clean := by
  unfold FaultEvent.Clean
  split <;> infer_instance

/-! ## What a failure leaves -/

namespace Process

variable {q p : Process} {fault : FlushFault}

/-- The append of the snapshot fails after `written` bytes. -/
theorem failFlush_append {written : Nat} (h : q.failFlush (.appendManifest written) = some p) :
    q.db.memtable.approxBytes ≠ 0 ∧ q.db.nextSst < 2 ^ 31 - 1 ∧ ∃ file fm torn,
      DB.buildTable q.db.nextSst 0 q.db.memtable.entries = some (file, fm) ∧
      torn.length = written ∧ p = { q with db := { q.db with
        dir := { q.db.dir.execAll [.writeTmp q.db.nextSst, .install q.db.nextSst file] with
          manifest := some (q.db.dir.manifest.getD [] ++ torn) }
        nextSst := q.db.nextSst + 1 } } := by
  unfold failFlush at h
  split at h
  · exact nomatch h
  · rename_i hmem
    obtain ⟨⟨number, db₁⟩, halloc, h⟩ := Option.bind_eq_some_iff.1 h
    obtain ⟨hlt, rfl, rfl⟩ := DB.allocSst_inv halloc
    obtain ⟨⟨file, fm⟩, hbuild, h⟩ := Option.bind_eq_some_iff.1 h
    dsimp only at h
    split at h
    · rename_i hw
      exact ⟨hmem, hlt, file, fm, _, hbuild, List.length_take_of_le hw.le, (Option.some.inj h).symm⟩
    · exact nomatch h

/-- Up to the truncation of the log a number is allocated for nothing, a table may be left that
    no snapshot lists, and the MANIFEST may end with a part of a record. -/
theorem failFlush_shape (hfault : fault.keepsLog = true) (h : q.failFlush fault = some p) :
    q.db.nextSst < 2 ^ 31 - 1 ∧ ∃ dir torn,
      p = { q with db := { q.db with dir := dir, nextSst := q.db.nextSst + 1 } } ∧
      dir.wal = q.db.dir.wal ∧ torn.length = fault.torn ∧
      (dir.manifest = q.db.dir.manifest ∨ dir.manifest = some (q.db.dir.manifest.getD [] ++ torn)) ∧
      (dir.sst = q.db.dir.sst ∨
        ∃ file, dir.sst = (q.db.nextSst, file) :: q.db.dir.sst.filter (·.1 ≠ q.db.nextSst)) := by
  have hfail := h
  unfold failFlush at h
  split at h
  · exact nomatch h
  · obtain ⟨⟨number, db₁⟩, halloc, h⟩ := Option.bind_eq_some_iff.1 h
    obtain ⟨hlt, rfl, rfl⟩ := DB.allocSst_inv halloc
    refine ⟨hlt, ?_⟩
    cases fault with
    | openTmp => exact ⟨_, [], (Option.some.inj h).symm, rfl, rfl, Or.inl rfl, Or.inl rfl⟩
    | writeTmp => exact ⟨_, [], (Option.some.inj h).symm, rfl, rfl, Or.inl rfl, Or.inl rfl⟩
    | rename =>
      obtain ⟨-, -, h⟩ := Option.bind_eq_some_iff.1 h
      exact ⟨_, [], (Option.some.inj h).symm, rfl, rfl, Or.inl rfl, Or.inl rfl⟩
    | openTable =>
      obtain ⟨file, -, h⟩ := Option.bind_eq_some_iff.1 h
      exact ⟨_, [], (Option.some.inj h).symm, rfl, rfl, Or.inl rfl, Or.inr ⟨file, rfl⟩⟩
    | appendManifest written =>
      obtain ⟨-, -, file, fm, torn, -, hlen, rfl⟩ := failFlush_append hfail
      exact ⟨_, torn, rfl, rfl, hlen, Or.inr rfl, Or.inr ⟨file, rfl⟩⟩
    | resizeWal => exact nomatch hfault
    | openWal => exact nomatch hfault

/-- From the truncation on there is no log. -/
theorem failFlush_wal (hfault : fault.keepsLog = false) (h : q.failFlush fault = some p) :
    p.wal = false := by
  unfold failFlush at h
  split at h
  · exact nomatch h
  · obtain ⟨⟨number, db₁⟩, -, h⟩ := Option.bind_eq_some_iff.1 h
    cases fault with
    | resizeWal =>
      obtain ⟨_, -, h⟩ := Option.bind_eq_some_iff.1 h
      exact Option.some.inj h ▸ rfl
    | openWal =>
      obtain ⟨_, -, h⟩ := Option.bind_eq_some_iff.1 h
      exact Option.some.inj h ▸ rfl
    | _ => exact nomatch hfault

/-- The store does not depend on the caller; a leader leaves its batch in the queue. -/
theorem fail_inv {caller : FlushCaller} (h : q.fail caller fault = some p) :
    ∃ p', q.failFlush fault = some p' ∧ p.db = p'.db ∧ p.wal = p'.wal ∧
      (caller = .leader → p.queue = false) := by
  cases caller with
  | client => exact ⟨p, h, rfl, rfl, nofun⟩
  | leader =>
    simp only [fail] at h
    split at h
    · obtain ⟨p', hp', rfl⟩ := Option.map_eq_some_iff.1 h
      exact ⟨p', hp', rfl, rfl, fun _ => rfl⟩
    · exact nomatch h

theorem live_inv {ev : LifeEvent} (h : q.step (.live ev) = some p) :
    (ev.leads = true → q.queue = true) ∧ (ev.appends = true → q.wal = true) ∧
      q.db.live ev = some p.db ∧ p.wal = (q.wal || ev.restarts || q.db.flushes ev.event) ∧
      p.queue = (q.queue || ev.restarts) := by
  rw [step] at h
  split at h
  · exact nomatch h
  · rename_i hc
    obtain ⟨db, hdb, rfl⟩ := Option.map_eq_some_iff.1 h
    simp only [Bool.or_eq_true, Bool.and_eq_true, Bool.not_eq_true', not_or, not_and,
      Bool.not_eq_false] at hc
    exact ⟨hc.1, hc.2, hdb, rfl, rfl⟩

end Process

/-- A number passed over, with a table under it or without. -/
theorem TablesOk.passOver {sst sst' : List (Nat × Bytes)} {ver : Version} {nextSst : Nat}
    {doomed : List Nat} {job : Option Job} (h : TablesOk sst ver nextSst doomed job)
    (hlt : nextSst < 2 ^ 31 - 1)
    (hsst : sst' = sst ∨ ∃ file, sst' = (nextSst, file) :: sst.filter (·.1 ≠ nextSst)) :
    TablesOk sst' ver (nextSst + 1) doomed job := by
  have hbase : TablesOk sst ver (nextSst + 1) doomed job := { h with
    sst_lt := fun p hp => Nat.lt_succ_of_lt (h.sst_lt p hp)
    next_lt := by omega
    used_lt := fun n hn => Nat.lt_succ_of_lt (h.used_lt n hn)
    doomed_lt := fun n hn => Nat.lt_succ_of_lt (h.doomed_lt n hn) }
  rcases hsst with rfl | ⟨file, rfl⟩
  · exact hbase
  · rw [filter_number_ne h.next_new]
    refine { hbase with sst_nodup := ?_, sst_lt := ?_, onDisk := ?_, writer_new := ?_ }
    · exact List.nodup_cons.2 ⟨h.next_new, h.sst_nodup⟩
    · intro p hp
      rcases List.mem_cons.1 hp with rfl | hp
      · exact Nat.lt_succ_self _
      · exact hbase.sst_lt p hp
    · exact fun fm hfm => List.mem_cons_of_mem _ (h.onDisk fm hfm)
    · intro n hn hmem
      rcases List.mem_cons.1 hmem with rfl | hmem
      · exact absurd (h.used_lt _ (List.mem_append_right _ hn)) (lt_irrefl _)
      · exact h.writer_new n hn hmem

/-- The numbers in use are below the next one. -/
theorem TablesOk.numbersBelow {db : DB}
    (h : TablesOk db.dir.sst db.version db.nextSst db.doomed db.job) : db.NumbersBelow where
  version _ hfm := h.used_lt _
    (List.mem_append_left _ (List.mem_map_of_mem (List.mem_append_left _ hfm)))
  outputs _ hfm := h.used_lt _
    (List.mem_append_left _ (List.mem_map_of_mem (List.mem_append_right _ hfm)))
  inputs fm hfm := h.used_lt _
    (List.mem_append_left _ (List.mem_map_of_mem (List.mem_append_left _ (h.inputs fm hfm))))
  writer n hn := h.used_lt n (List.mem_append_right _ hn)
  doomed n hn := h.doomed_lt n hn

theorem DB.Durable.failFlush {q p : Process} {fault : FlushFault} (hd : q.db.Durable)
    (hfault : fault.BeforeManifest) (h : q.failFlush fault = some p) : p.db.Durable := by
  obtain ⟨hlt, dir, torn, rfl, hwal, htorn, hman, hsst⟩ := Process.failFlush_shape hfault.1 h
  obtain rfl : torn = [] := List.eq_nil_of_length_eq_zero (htorn.trans hfault.2)
  obtain ⟨⟨htables, hlog, hinf⟩, hread⟩ := hd
  refine ⟨⟨htables.passOver hlt hsst, ?_, hinf⟩, ?_⟩
  · show LogOk dir.wal _
    rwa [hwal]
  · show ManifestRead dir.manifest _
    obtain ⟨snaps, files, hm, hrest⟩ := hread
    refine ⟨snaps, files, ?_, hrest⟩
    rw [hm, Option.getD_some, List.append_nil] at hman
    exact hman.elim id id

/-! ## Runs -/

/-- Calls within the limits of the log, blocks within those of a `pread`, snapshots within those
    of the MANIFEST reader. -/
def FaultEvent.LimitsOk (p : Process) : FaultEvent → Prop
  | .live ev => Keystone.LimitsOk p.db ev
  | .fail _ _ => True

instance (p : Process) (ev : FaultEvent) : Decidable (ev.LimitsOk p) := by
  unfold FaultEvent.LimitsOk
  split <;> infer_instance

namespace Process

variable {p p' : Process}

/-- A log to append to, a queue that can be led, and a durable store. -/
structure Sound (p : Process) : Prop where
  wal : p.wal = true
  queue : p.queue = true
  durable : p.db.Durable

theorem Sound.step (h : p.Sound) {ev : FaultEvent} (hev : ev.Clean ∧ ev.LimitsOk p)
    (hstep : p.step ev = some p') : p'.Sound := by
  cases ev with
  | live ev =>
    obtain ⟨-, -, hlive, hwal, hqueue⟩ := live_inv hstep
    exact ⟨by rw [hwal, h.wal]; rfl, by rw [hqueue, h.queue, Bool.true_or],
      h.durable.live hev.2 hlive⟩
  | fail caller fault =>
    obtain ⟨⟨rfl, hfault⟩, -⟩ := hev
    have hd : p'.db.Durable := h.durable.failFlush hfault hstep
    obtain ⟨-, dir, torn, rfl, -⟩ := failFlush_shape hfault.1 hstep
    exact ⟨h.wal, h.queue, hd⟩

theorem sound_run {opts : Options} {evs : List FaultEvent} (hevs : ∀ ev ∈ evs, ev.Clean)
    (hlim : Steps.Meets step (fun s ev => ev.LimitsOk s) (create opts) evs)
    (hrun : Steps.run step (create opts) evs = some p) : p.Sound :=
  have hclean : Steps.Meets step (fun _ ev => ev.Clean) (create opts) evs :=
    Steps.Meets.of_mem hevs
  Steps.run_invariant (fun _ _ _ h hev hstep => h.step hev hstep)
    ⟨rfl, rfl, DB.durable_create opts⟩ (hclean.and hlim) hrun

/-- Calls on such a process are steps of the engine. -/
theorem calls_eq (hwal : p.wal = true) (hqueue : p.queue = true) (evs : List Event) :
    p.calls evs = (Steps.run DB.step p.db evs).map fun db => { db := db } := by
  induction evs generalizing p with
  | nil =>
    obtain ⟨db, wal, queue⟩ := p
    obtain rfl : wal = true := hwal
    obtain rfl : queue = true := hqueue
    rfl
  | cons ev evs ih =>
    have hstep : p.step (.live (.run ev)) = (p.db.step ev).map fun db => { db := db } := by
      rw [step, hwal, hqueue]
      simp only [Bool.not_true, Bool.and_false, Bool.or_self, Bool.true_or]
      rfl
    rw [calls, List.map_cons, Steps.run, hstep, Steps.run]
    cases p.db.step ev with
    | none => rfl
    | some db => exact ih rfl rfl

/-- The same calls on the same state with other file numbers. -/
theorem calls_renumbered {ρ : Nat → Nat} (hρ : StrictMono ρ) (hwal : p.wal = true)
    (hqueue : p.queue = true) (hwal' : p'.wal = true) (hqueue' : p'.queue = true)
    (h : p.db.Renumbered ρ p'.db) {evs : List Event}
    (hev : ∀ ev ∈ evs, ∀ opts coins, ev ≠ .reopen opts coins)
    (hnum : Steps.Meets DB.step (fun s _ => s.nextSst < 2 ^ 31 - 1) p'.db
      (evs.map (Event.renumber ρ))) :
    Option.Rel (fun a b => a.db.SameReads b.db) (p.calls evs)
      (p'.calls (evs.map (Event.renumber ρ))) := by
  have hrel := h.run hρ hev hnum
  rw [calls_eq hwal hqueue, calls_eq hwal' hqueue']
  generalize Steps.run DB.step p.db evs = x at hrel ⊢
  generalize Steps.run DB.step p'.db _ = y at hrel ⊢
  cases hrel with
  | none => exact .none
  | some h => exact .some h.reads

/-- A put or a del, without the `maybe_flush` at its end. -/
def writeOf (op : Op) : List Event := [.assign [op], .apply []]

/-- Without the log, or with a lost request in the queue, there is no write. -/
theorem calls_writeOf_none (h : p.wal = false ∨ p.queue = false) (op : Op) :
    p.calls (writeOf op) = none := by
  show (p.step (.live (.run (.assign [op])))).bind
    (fun s => (s.step (.live (.run (.apply [])))).bind some) = none
  rw [Option.bind_eq_none_iff]
  intro s hs
  obtain ⟨hlead, -, -, hwal, -⟩ := live_inv hs
  rw [Option.bind_eq_none_iff]
  intro t ht
  obtain ⟨-, happend, -⟩ := live_inv ht
  rcases h with h | h
  · rw [h] at hwal
    exact nomatch (happend rfl).symm.trans hwal
  · exact nomatch (hlead rfl).symm.trans h

theorem Sound.calls_writeOf (h : p.Sound) (hidle : p.db.inflight = []) (op : Op) :
    (p.calls (writeOf op)).isSome = true := by
  rw [calls_eq h.wal h.queue]
  simp [writeOf, Steps.run, DB.step, DB.assign, DB.apply, hidle, batchRecords]

end Process

/-! ## Entries -/

namespace DB.Durable

variable {db db' : DB}

/-- Only a commit drops entries. -/
theorem entries_mono (hd : db.Durable) {ev : Event} (hlim : LimitsOk db (.run ev))
    (hev : ev ≠ .commit) (hstep : db.step ev = some db') : ∀ e ∈ db.entries, e ∈ db'.entries := by
  intro e he
  by_cases hopen : ∃ opts coins, ev = .reopen opts coins
  · obtain ⟨opts, coins, rfl⟩ := hopen
    exact ((hd.reopen hstep).2.entries e).2 he
  · have hfit : db.Within ev := hlim
    have hperm := entries_step hd.wellFormed.stored hfit.tables hstep hev
      fun opts coins hc => hopen ⟨opts, coins, hc⟩
    exact hperm.mem_iff.2 (List.mem_append_right _ he)

theorem run (hd : db.Durable) {evs : List Event}
    (hlim : Steps.Meets DB.step (fun s ev => LimitsOk s (.run ev)) db evs)
    (hrun : Steps.run DB.step db evs = some db') : db'.Durable :=
  Steps.run_invariant (fun s ev _ hI hP hstep => hI.live (show LimitsOk s (.run ev) from hP) hstep)
    hd hlim hrun

theorem entries_run (hd : db.Durable) {evs : List Event}
    (hlim : Steps.Meets DB.step (fun s ev => LimitsOk s (.run ev)) db evs)
    (hev : ∀ ev ∈ evs, ev ≠ .commit) (hrun : Steps.run DB.step db evs = some db') :
    ∀ e ∈ db.entries, e ∈ db'.entries := by
  have h := @Steps.run_invariant _ _ DB.step _ db db' evs
    (fun s => s.Durable ∧ ∀ e ∈ db.entries, e ∈ s.entries)
    (fun s ev s' hI hP hstep => ⟨hI.1.live (show LimitsOk s (.run ev) from hP.1) hstep,
      fun e he => hI.1.entries_mono hP.1 hP.2 hstep e (hI.2 e he)⟩)
    ⟨hd, fun _ => id⟩ (hlim.and (Steps.Meets.of_mem hev)) hrun
  exact h.2

/-- A batch that is applied stays. -/
theorem batch_run (hd : db.Durable) {past rest : List Event} {coins : List (List Bool)} {t : DB}
    (hlim : Steps.Meets DB.step (fun s ev => LimitsOk s (.run ev)) db (past ++ .apply coins :: rest))
    (hev : ∀ ev ∈ rest, ev ≠ .commit) (hpast : Steps.run DB.step db past = some t)
    (hrun : Steps.run DB.step db (past ++ .apply coins :: rest) = some db') :
    ∀ r ∈ t.inflight, r.entry ∈ db'.entries := by
  intro r hr
  rw [Steps.run_append, hpast, Option.bind_some] at hrun
  obtain ⟨hfirst, hlater⟩ := hlim.split
  obtain ⟨happly, hrest⟩ := hlater t hpast
  obtain ⟨t', hstep, hrun⟩ := Option.bind_eq_some_iff.1 hrun
  have ht' : t'.Durable :=
    (hd.run hfirst hpast).live (show LimitsOk t (.run (.apply coins)) from happly) hstep
  refine ht'.entries_run (hrest t' hstep) hev hrun _ ?_
  exact (entries_apply hstep).mem_iff.2 (List.mem_append_left _ (List.mem_map_of_mem hr))

end DB.Durable

/-! ## A part of a snapshot -/

/-- A directory whose MANIFEST ends with a part of a record and one more snapshot, which do not
    pass as a record, is opened on the files of the snapshot before them. -/
theorem Openable.of_torn {dir : Dir} {manifest : Option Bytes} {ver : Version} {torn : Bytes}
    {snapshot : List ManifestEntry} (hdisk : OnDisk dir ver) (hread : ManifestRead manifest ver)
    (hman : dir.manifest = some (manifest.getD [] ++ torn ++ Manifest.encodeSnapshot snapshot))
    (hspell : Manifest.Spells (torn ++ Manifest.encodeSnapshot snapshot) []) :
    Openable dir ver := by
  obtain ⟨snaps, files, rfl, hperm, hlast, hf, hok⟩ := hread
  have hfile : dir.manifest = Manifest.appendAll (Manifest.tornFile snaps torn) [snapshot] := by
    rw [hman]
    rfl
  have hload : Manifest.loadLatest dir.manifest = files.map FileMeta.manifestEntry := by
    rw [hfile, Manifest.loadLatest_tornFile hf hok (by simp) (by simpa using hspell),
      List.append_nil, hlast]
  refine ⟨hdisk, ⟨files, hperm, ?_⟩, fun hnone => ?_⟩
  · rw [DB.liveEntries, hload, if_neg]
    rw [hman]
    exact fun h => absurd h.2 (Option.some_ne_none _)
  · rw [hman] at hnone
    exact absurd hnone (Option.some_ne_none _)

namespace Process

variable {q p : Process}

theorem calls_flush {db : DB} (h : p.db.flush = some db) :
    ∃ s, p.calls [.flush] = some s ∧ s.db = db := by
  refine ⟨⟨db, p.wal || false || p.db.flushes .flush, p.queue || false⟩, ?_, rfl⟩
  show ((p.db.flush).map _).bind some = _
  rw [h]
  rfl

/-- After a part of a snapshot the next flush succeeds and clears the log. Its snapshot stands
    behind the torn bytes. -/
theorem flush_after_torn (hq : q.db.Durable) {caller : FlushCaller} {written : Nat}
    (hfail : q.fail caller (.appendManifest written) = some p) (hnum : p.db.nextSst < 2 ^ 31 - 1) :
    q.db.memtable.entries ≠ [] ∧ ∃ torn s, torn.length = written ∧
      p.db.dir.manifest = some (q.db.dir.manifest.getD [] ++ torn) ∧ p.calls [.flush] = some s ∧
      (Manifest.Spells (torn ++ Manifest.encodeSnapshot s.db.version.toManifest) [] →
        ∀ opts coins, ∃ db', DB.open opts coins s.db.dir = .ok db' ∧
          ∀ e, e ∈ db'.entries ↔ e ∈ q.db.version.allFiles.flatMap FileMeta.contents) := by
  obtain ⟨p', hfail, hp, -⟩ := fail_inv hfail
  obtain ⟨hmem, hlt, file, fm, torn, hbuild, hlen, rfl⟩ := failFlush_append hfail
  have hbuild' : DB.buildTable p.db.nextSst 0 p.db.memtable.entries =
      some (file, fm.renumber (· + 1)) := by
    rw [hp]
    exact (buildTable_renumber (· + 1) q.db.nextSst 0 q.db.memtable.entries).trans
      (by rw [hbuild, Option.map_some])
  have hflush := DB.flush_eq (by rwa [hp]) hnum hbuild'
  obtain ⟨s, hs, hdb⟩ := calls_flush hflush
  refine ⟨fun hc => hmem ((Memtable.approxBytes_eq_zero _).2 hc), torn, s, hlen, by rw [hp], hs, ?_⟩
  intro hspell opts coins
  have hopen : Openable s.db.dir q.db.version := by
    have htab := (hq.wellFormed.tables.passOver hlt (Or.inr ⟨file, rfl⟩)).passOver
      (by rwa [hp] at hnum) (Or.inr ⟨file, rfl⟩)
    refine Openable.of_torn ?_ hq.manifest ?_ hspell
    · rw [hdb, hp]
      exact htab.liveOnDisk
    · rw [hdb, hp]
      rfl
  have hwal : Wal.replay s.db.dir.wal = [] := by
    rcases DB.flush_wal hflush with ⟨-, hlog, -⟩ | ⟨hz, -⟩
    · rw [hdb, hlog]
      rfl
    · rw [hp] at hz
      exact absurd hz hmem
  obtain ⟨db', hdb', ho⟩ := hopen.open_spec opts coins
  rw [hwal] at ho
  exact ⟨db', hdb', fun e => ho.entries_perm.mem_iff⟩

end Process

/-! ## Failure atomicity -/

namespace Process

/-- Reads and later calls do not see the flush that failed between `q` and `p`: every read returns
    what it returned before, and every later run of calls and engine steps succeeds exactly if it
    does without the flush, and leads to a state that reads alike. The files of that state have
    other numbers, from the one lost on. -/
def Undisturbed (q p : Process) : Prop :=
  q.db.SameReads p.db ∧
    ∀ later : List Event, (∀ ev ∈ later, ∀ opts coins, ev ≠ .reopen opts coins) →
      Steps.Meets DB.step (fun s _ => s.nextSst < 2 ^ 31 - 1) p.db
        (later.map (Event.renumber (skip q.db.nextSst))) →
      Option.Rel (fun a b => a.db.SameReads b.db) (q.calls later)
        (p.calls (later.map (Event.renumber (skip q.db.nextSst))))

/-- An open after any later calls within the limits finds exactly the entries that are there;
    among them, if no compaction has committed, all from before the failure and every batch
    applied after it. -/
def Recovers (q p : Process) : Prop :=
  ∀ (later : List Event) (s : Process),
    Steps.Meets DB.step (fun s ev => LimitsOk s (.run ev)) p.db later → p.calls later = some s →
    ∀ opts coins, ∃ db', DB.open opts coins s.db.dir = .ok db' ∧
      db'.Restores s.db.version s.db.entries ∧
      ((∀ ev ∈ later, ev ≠ .commit) → (∀ e ∈ q.db.entries, e ∈ db'.entries) ∧
        ∀ past coins rest t, later = past ++ .apply coins :: rest → p.calls past = some t →
          ∀ r ∈ t.db.inflight, r.entry ∈ db'.entries)

variable {q p : Process} {fault : FlushFault}

theorem Sound.undisturbed (hq : q.Sound) (hlog : fault.keepsLog = true)
    (hfail : q.failFlush fault = some p) : q.Undisturbed p := by
  obtain ⟨-, dir, torn, hp, hdir, -⟩ := failFlush_shape hlog hfail
  have hren : q.db.Renumbered (skip q.db.nextSst) p.db := by
    rw [hp]
    exact hq.durable.wellFormed.tables.numbersBelow.skipped hdir
  have hwal : p.wal = true := by rw [hp, ← hq.wal]
  have hqueue : p.queue = true := by rw [hp, ← hq.queue]
  exact ⟨hren.reads, fun later hlater hnum =>
    calls_renumbered (strictMono_skip _) hq.wal hq.queue hwal hqueue hren hlater hnum⟩

theorem Sound.recovers (hq : q.Sound) (hfault : fault.BeforeManifest)
    (hfail : q.failFlush fault = some p) : q.Recovers p := by
  have hp : p.Sound := @Sound.step q p hq (.fail .client fault) ⟨⟨rfl, hfault⟩, trivial⟩ hfail
  have hentries : p.db.entries = q.db.entries := by
    obtain ⟨-, dir, torn, rfl, -⟩ := failFlush_shape hfault.1 hfail
    rfl
  intro later s hlimits hcalls opts coins
  rw [calls_eq hp.wal hp.queue] at hcalls
  obtain ⟨sdb, hs, rfl⟩ := Option.map_eq_some_iff.1 hcalls
  obtain ⟨db', hopen, -, hrestores⟩ := (hp.durable.run hlimits hs).holds.open opts coins
  refine ⟨db', hopen, hrestores, fun hcommit => ⟨fun e he => ?_, ?_⟩⟩
  · exact (hrestores.entries e).2 (hp.durable.entries_run hlimits hcommit hs e (hentries ▸ he))
  · intro past coins' rest t hsplit ht r hr
    subst hsplit
    rw [calls_eq hp.wal hp.queue] at ht
    obtain ⟨tdb, hpast, rfl⟩ := Option.map_eq_some_iff.1 ht
    refine (hrestores.entries _).2 (hp.durable.batch_run hlimits (fun ev hev => ?_) hpast hs r hr)
    exact hcommit ev (List.mem_append_right _ (List.mem_cons_of_mem _ hev))

end Process

/-- **A flush that fails.** After any run of calls, engine steps, reopens, crashes and client
    flushes that failed before the MANIFEST, within the limits:
    * a client's flush that fails before the truncation of the log does not disturb reads and
      later calls;
    * if no byte of the snapshot was written, a reopen finds every write;
    * if some were, the next flush succeeds, and unless these bytes and its snapshot pass as a
      record, a reopen finds the old tables alone, though the memtable was not empty;
    * after a failure from the truncation of the log on, or in the leader of a batch, the next put
      or del fails, though without it it succeeds. -/
theorem flush_failure_atomic {opts : Options} {evs : List FaultEvent} {q p : Process}
    {caller : FlushCaller} {fault : FlushFault} (hevs : ∀ ev ∈ evs, ev.Clean)
    (hlim : Steps.Meets Process.step (fun s ev => ev.LimitsOk s) (.create opts) evs)
    (hrun : Steps.run Process.step (.create opts) evs = some q)
    (hfail : q.step (.fail caller fault) = some p) :
    (caller = .client → fault.keepsLog = true → q.Undisturbed p) ∧
    (caller = .client → fault.BeforeManifest → q.Recovers p) ∧
    (∀ written, fault = .appendManifest written → p.db.nextSst < 2 ^ 31 - 1 →
      q.db.memtable.entries ≠ [] ∧ ∃ torn s, torn.length = written ∧
        p.db.dir.manifest = some (q.db.dir.manifest.getD [] ++ torn) ∧ p.calls [.flush] = some s ∧
        (Manifest.Spells (torn ++ Manifest.encodeSnapshot s.db.version.toManifest) [] →
          ∀ opts coins, ∃ db', DB.open opts coins s.db.dir = .ok db' ∧
            ∀ e, e ∈ db'.entries ↔ e ∈ q.db.version.allFiles.flatMap FileMeta.contents)) ∧
    (caller = .leader ∨ fault.keepsLog = false → q.db.inflight = [] → ∀ op,
      (q.calls (Process.writeOf op)).isSome = true ∧ p.calls (Process.writeOf op) = none) := by
  have hq : q.Sound := Process.sound_run hevs hlim hrun
  refine ⟨?_, ?_, ?_, ?_⟩
  · rintro rfl hlog
    exact hq.undisturbed hlog hfail
  · rintro rfl hfault
    exact hq.recovers hfault hfail
  · rintro written rfl hnum
    exact Process.flush_after_torn hq.durable hfail hnum
  · intro hbad hidle op
    refine ⟨hq.calls_writeOf hidle op, Process.calls_writeOf_none ?_ op⟩
    obtain ⟨p', hp', -, hwal, hqueue⟩ := Process.fail_inv hfail
    exact hbad.symm.imp (fun hlog => hwal.trans (Process.failFlush_wal hlog hp')) hqueue

/-- A put, and a flush that could not rename its table. -/
def renameFailed : List FaultEvent :=
  [.live (.run (.assign [.put [1] [1]])), .live (.run (.apply [])), .fail .client .rename]

/-- Another put, and a flush that goes through. -/
def putFlush : List Event := [.assign [.put [2] [2]], .apply [], .flush]

theorem flush_failure_atomic_openTable : ∃ q p s db',
    Steps.run Process.step (.create {}) renameFailed = some q ∧
    q.step (.fail .client .openTable) = some p ∧ q.db.SameReads p.db ∧
    Option.Rel (fun a b => a.db.SameReads b.db) (q.calls putFlush) (p.calls putFlush) ∧
    p.calls putFlush = some s ∧ DB.open {} [] s.db.dir = .ok db' ∧
    ∀ e ∈ q.db.entries, e ∈ db'.entries := by
  have hlim : Steps.Meets Process.step (fun s ev => ev.LimitsOk s) (.create {}) renameFailed := by
    decide +kernel
  have hlast : ((Steps.run Process.step (.create {}) renameFailed).any fun q =>
      (q.step (.fail .client .openTable)).any fun p =>
        decide (Steps.Meets DB.step (fun s _ => s.nextSst < 2 ^ 31 - 1) p.db putFlush) &&
        decide (Steps.Meets DB.step (fun s ev => LimitsOk s (.run ev)) p.db putFlush) &&
        (p.calls putFlush).isSome) = true := by
    decide +kernel
  obtain ⟨q, hrun, hlast⟩ := (Option.any_eq_true _ _).1 hlast
  obtain ⟨p, hfail, hlast⟩ := (Option.any_eq_true _ _).1 hlast
  rw [Bool.and_eq_true, Bool.and_eq_true, decide_eq_true_eq, decide_eq_true_eq] at hlast
  obtain ⟨⟨hnum, hlater⟩, hcalls⟩ := hlast
  obtain ⟨s, hs⟩ := Option.isSome_iff_exists.1 hcalls
  obtain ⟨hsame, hopen, -⟩ := flush_failure_atomic (by decide) hlim hrun hfail
  obtain ⟨hreads, hrel⟩ := hsame rfl rfl
  obtain ⟨db', hdb, -, hkept⟩ := hopen rfl (by decide) putFlush s hlater hs {} []
  exact ⟨q, p, s, db', hrun, hfail, hreads, hrel putFlush (by simp [putFlush]) hnum, hs, hdb,
    (hkept (by simp [putFlush])).1⟩

/-- After one byte of the snapshot the next flush succeeds, and a reopen finds nothing of what
    it wrote. After a failing truncation of the log the next put has no log to append to, though
    without the flush it succeeds. -/
theorem flush_failure_loses :
    ((Steps.run Process.step (.create {}) (renameFailed.take 2)).bind fun q =>
      (q.step (.fail .client (.appendManifest 1))).bind fun p =>
        (p.calls [.flush, .reopen {} []]).map fun s =>
          (q.db.get [1], p.db.get [1], s.db.get [1])) =
      some (.ok (some [1]), .ok (some [1]), .ok none) ∧
    ((Steps.run Process.step (.create {}) (renameFailed.take 2)).bind fun q =>
      (q.step (.fail .client .resizeWal)).map fun p =>
        ((q.calls (putFlush.take 2)).isSome, (p.calls (putFlush.take 2)).isSome)) =
      some (true, false) := by
  decide +kernel

end Keystone
