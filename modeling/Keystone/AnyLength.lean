/-
  What the log keeps of the writes.

  `DB::write` checks no length, while `WAL::replay` stops at a record with a key or a value over
  64 MiB.

  `replay_since_iff`: in every run of calls and reopens, the log replays to exactly what was
  appended since it was last cleared iff every one of these records is within the limit.
-/
import Keystone.Recovery

namespace Keystone

/-- The lengths fit the fields of the log and of a table. -/
def Op.Short (op : Op) : Prop := op.key.length < 2 ^ 32 ∧ op.value.length < 2 ^ 32

instance (op : Op) : Decidable op.Short := inferInstanceAs (Decidable (_ ∧ _))

/-! ## The log since it was cleared -/

/-- The store, and the records appended since its log was last cleared. -/
structure Logged where
  db : DB
  since : List Wal.Record

/-- The records appended since the log was last cleared, after one more step. -/
def Logged.next (l : Logged) : Event → List Wal.Record
  | .apply _ => l.since ++ l.db.inflight
  | ev => if l.db.flushes ev then [] else l.since

def Logged.step (l : Logged) (ev : Event) : Option Logged :=
  (l.db.step ev).map fun db => ⟨db, l.next ev⟩

/-- As long as the records are within the limit, the log is their encoding. -/
def Logged.Intact (l : Logged) : Prop :=
  (∀ r ∈ l.since, r.Fits) → l.db.dir.wal = some (l.since.flatMap Wal.encodeRecord)

section Since

variable {db db' : DB}

theorem open_wal {opts : Options} {coins : List (List Bool)} {dir : Dir}
    (h : DB.open opts coins dir = .ok db) :
    db.dir.wal = some ((Wal.replay dir.wal).flatMap Wal.encodeRecord) := by
  obtain ⟨files, -, rfl⟩ := DB.open_inv h
  exact execAll_openOps_wal dir

/-- **One step** of a call, a flush or a reopen. -/
theorem Logged.Intact.step {l l' : Logged} {ev : Event} (h : l.Intact) (hstep : l.step ev = some l') :
    l'.Intact := by
  obtain ⟨db', hdb, rfl⟩ := Option.map_eq_some_iff.1 hstep
  have hother : ev.ofWriters = false → l.next ev = (if l.db.flushes ev then [] else l.since) →
      Logged.Intact ⟨db', l.next ev⟩ := by
    intro hev hnext
    rcases DB.step_flushes hev hdb with ⟨hf, hwal, -⟩ | ⟨hf, hwal, -⟩
    · rw [hnext, if_pos hf]
      exact fun _ => hwal
    · rw [hnext, hf]
      exact fun hfits => hwal.trans (h hfits)
  cases ev with
  | assign ops =>
    obtain ⟨-, -, rfl⟩ := DB.assign_inv hdb
    exact h
  | apply coins =>
    obtain ⟨-, rfl⟩ := DB.apply_inv hdb
    intro hfits
    have hwal := h fun r hr => hfits r (List.mem_append_left _ hr)
    show some (Wal.appendBatch (l.db.dir.wal.getD []) l.db.inflight) = _
    rw [hwal]
    simp [Logged.next, Wal.appendBatch]
  | reopen opts coins =>
    obtain ⟨-, -, -, -, hopen⟩ := DB.reopen_inv hdb
    intro hnext
    have hfits : ∀ r ∈ l.since, r.Fits := hnext
    have hwal : l.db.dir.wal = some (l.since.flatMap Wal.encodeRecord) := h hfits
    have hreplay : Wal.replay l.db.dir.wal = l.since := by rw [hwal, Wal.replay_append hfits]
    show db'.dir.wal = some (l.since.flatMap Wal.encodeRecord)
    rw [open_wal hopen, hreplay]
  | _ => exact hother rfl rfl

end Since

/-- **Every acknowledged write is replayable**, in every run, exactly if the log admits every
    record appended since it was last cleared. -/
theorem replay_since_iff {opts : Options} {coins : List (List Bool)} {dir : Dir} {db : DB}
    {evs : List Event} {l : Logged} (hopen : DB.open opts coins dir = .ok db)
    (hrun : Steps.run Logged.step ⟨db, Wal.replay dir.wal⟩ evs = some l) :
    Wal.replay l.db.dir.wal = l.since ↔ ∀ r ∈ l.since, r.Fits := by
  have hstart : Logged.Intact ⟨db, Wal.replay dir.wal⟩ := fun _ => open_wal hopen
  have hl : l.Intact := Steps.run_invariant (P := fun _ _ => True)
    (fun _ _ _ h _ hstep => h.step hstep) hstart (Steps.Meets.of_forall fun _ _ => trivial) hrun
  refine ⟨fun he => he ▸ Wal.replay_fits _, fun hfits => ?_⟩
  rw [hl hfits, Wal.replay_append hfits]

theorem replay_since_two : ∃ l, Steps.run Logged.step ⟨DB.create {}, []⟩
      [.assign [.put [1] [2], .del [3]], .apply [], .assign [.put [] []], .apply []] = some l ∧
    l.since.length = 3 ∧ Wal.replay l.db.dir.wal = l.since := by
  have h : (Steps.run Logged.step ⟨DB.create {}, []⟩ [.assign [.put [1] [2], .del [3]],
      .apply [], .assign [.put [] []], .apply []]).map Logged.since =
      some [⟨.put, 1, [1], [2]⟩, ⟨.delete, 2, [3], []⟩, ⟨.put, 3, [], []⟩] := by decide +kernel
  obtain ⟨l, hl, hsince⟩ := Option.map_eq_some_iff.1 h
  refine ⟨l, hl, by rw [hsince]; rfl, (replay_since_iff (DB.open_empty {} []) hl).2 ?_⟩
  rw [hsince]
  simp [Wal.Record.Fits, Wal.maxFieldLen]

theorem approxBytes_applyAll (m : Memtable) (rs : List Wal.Record) (coins : List (List Bool)) :
    (m.applyAll rs coins).approxBytes =
      ((rs.map Wal.Record.entry).map nodeBytes).sum + m.approxBytes := by
  have hb : ∀ m : Memtable, m.approxBytes = (m.entries.map nodeBytes).sum := fun m => m.bytes
  rw [hb, hb, ((m.entries_applyAll rs coins).map nodeBytes).sum_eq, List.map_append,
    List.sum_append]

/-- A single write up to its last section. -/
theorem run_writeCall {db : DB} {op : Op} (hidle : db.inflight = []) : db.run (writeCall op) =
    DB.maybeFlush { db with
      dir := { db.dir with
        wal := some (Wal.appendBatch (db.dir.wal.getD []) [op.record db.nextSeq]) }
      memtable := db.memtable.applyAll [op.record db.nextSeq] []
      nextSeq := db.nextSeq + 1
      inflight := [] } := by
  simp [writeCall, DB.run, Steps.run, DB.step, DB.assign, hidle, DB.apply, batchRecords, Dir.execAll,
    Dir.exec]

/-- A single write that stays below the flush threshold. -/
theorem logged_writeCall {l : Logged} {op : Op} (hidle : l.db.inflight = [])
    (hsmall : nodeBytes (op.record l.db.nextSeq).entry + l.db.memtable.approxBytes <
      l.db.opts.flushThresholdBytes.toNat) :
    Steps.run Logged.step l (writeCall op) = some ⟨{ l.db with
      dir := { l.db.dir with
        wal := some (Wal.appendBatch (l.db.dir.wal.getD []) [op.record l.db.nextSeq]) }
      memtable := l.db.memtable.applyAll [op.record l.db.nextSeq] []
      nextSeq := l.db.nextSeq + 1
      inflight := [] }, l.since ++ [op.record l.db.nextSeq]⟩ := by
  have hbytes := approxBytes_applyAll l.db.memtable [op.record l.db.nextSeq] []
  have hno : ¬ l.db.opts.flushThresholdBytes.toNat ≤
      (l.db.memtable.applyAll [op.record l.db.nextSeq] []).approxBytes := by
    rw [hbytes]
    simpa using hsmall
  simp [writeCall, Steps.run, Logged.step, DB.assign, hidle, DB.step, DB.apply,
    DB.maybeFlush, batchRecords, Dir.execAll, Dir.exec, Logged.next, DB.flushes, hno]

theorem nodeBytes_put (key value : Bytes) (seq : UInt64) :
    nodeBytes ((Op.put key value).record seq).entry = key.length + value.length + 64 := rfl

section LongKey

variable {key : Bytes}

theorem approxBytes_put : (Memtable.fresh.applyAll [(Op.put key []).record 1] []).approxBytes =
    key.length + 64 := by
  rw [approxBytes_applyAll, List.map_singleton, List.map_singleton, nodeBytes_put,
    List.sum_singleton]
  rfl

/-- A key over the limit and then a small one: both writes are acknowledged and nothing is
    flushed, but the log replays to nothing. The reader stops at the first record, and the
    second one is lost with it. -/
theorem replay_long (hover : Wal.maxFieldLen < key.length) (hmax : key.length < 2 ^ 29) :
    ∃ l, Steps.run Logged.step ⟨DB.create { flushThresholdBytes := 1073741824 }, []⟩
      (writeCall (.put key []) ++ writeCall (.put [1] [1])) = some l ∧
    l.since = [⟨.put, 1, key, []⟩, ⟨.put, 2, [1], [1]⟩] ∧ Wal.replay l.db.dir.wal = [] := by
  have hlimit : (1073741824 : UInt64).toNat = 1073741824 := rfl
  have h1 := @logged_writeCall ⟨DB.create { flushThresholdBytes := 1073741824 }, []⟩ (.put key [])
    rfl (by
      show key.length + 0 + 64 + 0 < (1073741824 : UInt64).toNat
      omega)
  rw [Steps.run_append, h1, Option.bind_some]
  refine ⟨_, logged_writeCall rfl ?_, rfl, ?_⟩
  · have hb := @approxBytes_put key
    show 1 + 1 + 64 + (Memtable.fresh.applyAll [(Op.put key []).record 1] []).approxBytes <
      (1073741824 : UInt64).toNat
    omega
  · have hshort : Wal.Record.Short ⟨.put, 1, key, []⟩ :=
      ⟨lt_trans hmax (by norm_num), Nat.two_pow_pos 32⟩
    have hlong : ¬ Wal.Record.Fits ⟨.put, 1, key, []⟩ := fun h => absurd h.1 (Nat.not_le.2 hover)
    have hlog : Wal.appendBatch (Wal.appendBatch [] [⟨.put, 1, key, []⟩]) [⟨.put, 2, [1], [1]⟩] =
        Wal.encodeRecord ⟨.put, 1, key, []⟩ ++ Wal.encodeRecord ⟨.put, 2, [1], [1]⟩ := by
      simp [Wal.appendBatch]
    show Wal.replay (some (Wal.appendBatch (Wal.appendBatch [] [⟨.put, 1, key, []⟩])
      [⟨.put, 2, [1], [1]⟩])) = []
    rw [hlog, Wal.replay, Frame.records_stop (Wal.readRecord_long hshort hlong _)]

end LongKey

/-- A key of one byte more than the limit. -/
def longKey : Bytes := List.replicate (Wal.maxFieldLen + 1) 0

theorem length_longKey : longKey.length = Wal.maxFieldLen + 1 := by
  rw [longKey, List.length_replicate]

theorem replay_longKey :
    ∃ l, Steps.run Logged.step ⟨DB.create { flushThresholdBytes := 1073741824 }, []⟩
      (writeCall (.put longKey []) ++ writeCall (.put [1] [1])) = some l ∧
    l.since = [⟨.put, 1, longKey, []⟩, ⟨.put, 2, [1], [1]⟩] ∧ Wal.replay l.db.dir.wal = [] := by
  have hlen := length_longKey
  unfold Wal.maxFieldLen at hlen
  refine replay_long ?_ ?_
  · rw [hlen]
    exact Nat.lt_succ_self _
  · rw [hlen]
    norm_num

end Keystone
