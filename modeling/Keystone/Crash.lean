/-
  Crashes.

  A crash comes after any of the file operations of the step in progress (`DB.diskOps`); an
  append to the log may be there up to any byte, an append to the MANIFEST is there or not. What
  the process had in memory is gone. The next `DB::open` may itself be interrupted after any of
  its operations, any number of times, before one goes through.

  * `openOps_take_wal`, `flushOps_take_wal`: an interrupted open or flush only cuts the log.
  * `replay_prefix`: of a log cut at any byte nothing is read but records that were written.
-/
import Keystone.AnyLength

namespace Keystone

/-! ## The machine -/

namespace Dir

/-- The directory when `done` of the operations are through and the crash comes in the next. -/
def crashIn (dir : Dir) (ops : List DiskOp) (done cut : Nat) : Dir :=
  match ops[done]? with
  | some (.appendWal records) =>
    { dir.execAll (ops.take done) with
      wal := some ((dir.execAll (ops.take done)).wal.getD [] ++
        (records.flatMap Wal.encodeRecord).take cut) }
  | _ => dir.execAll (ops.take done)

/-- An open that does not get beyond its first `n` operations. -/
def crashOpen (dir : Dir) (n : Nat) : Dir := dir.execAll ((DB.openOps dir).take n)

end Dir

/-- A crash in the step `ev`, interrupted opens, and one that goes through. -/
structure CrashAt where
  ev : Event
  done : Nat
  cut : Nat
  opens : List Nat
  opts : Options
  coins : List (List Bool)

/-- The directory the last open finds. -/
def DB.crashDir (db : DB) (c : CrashAt) : Dir :=
  c.opens.foldl Dir.crashOpen (db.dir.crashIn (db.diskOps c.ev) c.done c.cut)

/-- A crash, and the open behind it. -/
def DB.crash (db : DB) (c : CrashAt) : Option DB :=
  if (db.step c.ev).isSome then (DB.open c.opts c.coins (db.crashDir c)).toOption else none

/-- What can happen to a store: a step, or a crash in one. -/
inductive LifeEvent where
  | run (ev : Event)
  | crash (c : CrashAt)

def DB.live (db : DB) : LifeEvent → Option DB
  | .run ev => db.step ev
  | .crash c => db.crash c

theorem DB.crash_inv {db db' : DB} {c : CrashAt} (h : db.crash c = some db') :
    (∃ db₁, db.step c.ev = some db₁) ∧ DB.open c.opts c.coins (db.crashDir c) = .ok db' := by
  unfold DB.crash at h
  split at h
  · rename_i hs
    exact ⟨Option.isSome_iff_exists.1 hs, eq_ok_of_toOption h⟩
  · simp at h

/-- A flushed put, a crash in the middle of the next append, an open interrupted after its first
    operation, and another put. -/
def crashRun : List LifeEvent :=
  [.run (.assign [.put [1] [1]]), .run (.apply []), .run .flush,
    .run (.assign [.put [2] [2], .del [1]]), .crash ⟨.apply [], 0, 30, [1], {}, []⟩,
    .run (.assign [.put [3] [3]]), .run (.apply [])]

/-! ## The log of an interrupted step -/

/-- The operation does not touch the log, or only creates it. -/
def DiskOp.keepsWal : DiskOp → Bool
  | .appendWal _ => false
  | .resizeWal _ => false
  | _ => true

theorem execAll_keepsWal {ops : List DiskOp} (h : ∀ op ∈ ops, op.keepsWal = true) (dir : Dir) :
    (dir.execAll ops).wal.getD [] = dir.wal.getD [] := by
  induction ops generalizing dir with
  | nil => rfl
  | cons op ops ih =>
    have hop : (dir.exec op).wal.getD [] = dir.wal.getD [] := by
      have := h op List.mem_cons_self
      cases op <;> first | rfl | exact absurd this Bool.false_ne_true
    exact (ih (fun o ho => h o (List.mem_cons_of_mem op ho)) (dir.exec op)).trans hop

/-- Without an append to the log a crash comes between two operations. -/
theorem crashIn_eq {ops : List DiskOp} (h : ∀ op ∈ ops, ∀ records, op ≠ .appendWal records)
    (dir : Dir) (done cut : Nat) : dir.crashIn ops done cut = dir.execAll (ops.take done) := by
  unfold Dir.crashIn
  split
  · rename_i records hop
    exact absurd rfl (h _ (List.mem_of_getElem? hop) records)
  · rfl

theorem crashIn_sst (dir : Dir) (ops : List DiskOp) (done cut : Nat) :
    (dir.crashIn ops done cut).sst = (dir.execAll (ops.take done)).sst := by
  unfold Dir.crashIn
  split <;> rfl

theorem keepsWal_not_append {op : DiskOp} (h : op.keepsWal = true) (records : List Wal.Record) :
    op ≠ .appendWal records := by
  rintro rfl
  exact Bool.false_ne_true h

/-- What the open does behind the truncation of the log. -/
def DB.openRest (dir : Dir) : List DiskOp :=
  dir.tmp.map .removeTmp ++ ((DB.orphans dir (DB.liveEntries dir)).map .removeSst ++
    (.openManifest :: ((if dir.manifest = none ∧ DB.liveEntries dir ≠ [] then
      [.appendManifest (DB.liveEntries dir)] else []) ++ [.openWal])))

theorem openOps_eq (dir : Dir) : DB.openOps dir =
    (if dir.wal.isSome then [DiskOp.resizeWal (DB.validEnd (Wal.replay dir.wal))] else []) ++
      DB.openRest dir := by
  simp [DB.openOps, DB.openRest]

theorem mem_openRest {dir : Dir} {op : DiskOp} (h : op ∈ DB.openRest dir) :
    (∃ n ∈ dir.tmp, op = .removeTmp n) ∨
    (∃ n ∈ DB.orphans dir (DB.liveEntries dir), op = .removeSst n) ∨ op = .openManifest ∨
    (dir.manifest = none ∧ DB.liveEntries dir ≠ [] ∧ op = .appendManifest (DB.liveEntries dir)) ∨
    op = .openWal := by
  unfold DB.openRest at h
  simp only [List.mem_append, List.mem_map, List.mem_cons, List.not_mem_nil, or_false] at h
  rcases h with ⟨n, hn, rfl⟩ | ⟨n, hn, rfl⟩ | rfl | h | rfl
  · exact Or.inl ⟨n, hn, rfl⟩
  · exact Or.inr (Or.inl ⟨n, hn, rfl⟩)
  · exact Or.inr (Or.inr (Or.inl rfl))
  · split at h
    · rename_i hc
      exact Or.inr (Or.inr (Or.inr (Or.inl ⟨hc.1, hc.2, List.mem_singleton.1 h⟩)))
    · simp at h
  · exact Or.inr (Or.inr (Or.inr (Or.inr rfl)))

theorem openRest_keepsWal {dir : Dir} {op : DiskOp} (h : op ∈ DB.openRest dir) :
    op.keepsWal = true := by
  rcases mem_openRest h with ⟨n, -, rfl⟩ | ⟨n, -, rfl⟩ | rfl | ⟨-, -, rfl⟩ | rfl <;> rfl

theorem openOps_not_append {dir : Dir} {op : DiskOp} (h : op ∈ DB.openOps dir)
    (records : List Wal.Record) : op ≠ .appendWal records := by
  rw [openOps_eq, List.mem_append] at h
  rcases h with h | h
  · split at h
    · rw [List.mem_singleton.1 h]
      nofun
    · simp at h
  · exact keepsWal_not_append (openRest_keepsWal h) records

theorem openOps_not_install {dir : Dir} {n : Nat} {file : Bytes} :
    .install n file ∉ DB.openOps dir := by
  intro h
  rw [openOps_eq, List.mem_append] at h
  rcases h with h | h
  · split at h <;> simp at h
  · rcases mem_openRest h with ⟨n, -, he⟩ | ⟨n, -, he⟩ | he | ⟨-, -, he⟩ | he <;> exact nomatch he

/-- An interrupted open leaves the log as it is, or cut behind its records. -/
theorem openOps_take_wal (dir : Dir) (n : Nat) :
    (dir.crashOpen n).wal.getD [] <+: dir.wal.getD [] := by
  have hrest : ∀ (d : Dir) (m : Nat), (d.execAll ((DB.openRest dir).take m)).wal.getD [] =
      d.wal.getD [] :=
    fun d m => execAll_keepsWal (fun op hop => openRest_keepsWal (List.mem_of_mem_take hop)) d
  rw [Dir.crashOpen, openOps_eq, List.take_append, execAll_append, hrest]
  cases hw : dir.wal with
  | none => simp [Dir.execAll, hw]
  | some f =>
    obtain ⟨rest, hf, -⟩ := Wal.replay_split f
    obtain ⟨hlen, -⟩ := validEnd_spec hf
    cases n with
    | zero => simp [Dir.execAll, hw]
    | succ n =>
      simp only [Option.isSome_some, if_true, List.take_succ_cons, List.take_nil, Dir.execAll,
        List.foldl_cons, List.foldl_nil, Dir.exec, hw, Option.map_some, Option.getD_some,
        Nat.sub_eq_zero_of_le hlen, List.replicate_zero, List.append_nil]
      exact List.take_prefix _ _

theorem flushOps_not_append {number : Nat} {file : Bytes} {ver : Version} {op : DiskOp}
    (h : op ∈ DB.flushOps number file ver) (records : List Wal.Record) : op ≠ .appendWal records := by
  simp only [DB.flushOps, List.mem_cons, List.not_mem_nil, or_false] at h
  rcases h with rfl | rfl | rfl | rfl | rfl <;> simp

/-- An interrupted flush leaves the log as it is, or empty. -/
theorem flushOps_take_wal (dir : Dir) (number : Nat) (file : Bytes) (ver : Version) (n : Nat) :
    (dir.execAll ((DB.flushOps number file ver).take n)).wal.getD [] <+: dir.wal.getD [] := by
  rcases n with _ | _ | _ | _ | _ | n <;> cases hw : dir.wal <;>
    simp [DB.flushOps, Dir.execAll, Dir.exec, hw]

/-! ## The operations of a step -/

section Steps

variable {db : DB}

theorem flushDiskOps_cases (db : DB) : db.flushDiskOps = [] ∨ ∃ file fm,
    DB.buildTable db.nextSst 0 db.memtable.entries = some (file, fm) ∧
      db.flushDiskOps = DB.flushOps db.nextSst file (db.version.pushL0 fm) := by
  unfold DB.flushDiskOps
  split
  · exact Or.inl rfl
  · split
    · rename_i file fm hbuild
      exact Or.inr ⟨file, fm, hbuild, rfl⟩
    · exact Or.inl rfl

theorem flushDiskOps_not_append {op : DiskOp} (h : op ∈ db.flushDiskOps)
    (records : List Wal.Record) : op ≠ .appendWal records := by
  rcases flushDiskOps_cases db with he | ⟨file, fm, -, he⟩ <;> rw [he] at h
  · simp at h
  · exact flushOps_not_append h records

theorem diskOps_keepsWal {ev : Event} (hev : ev.ofLog = false) {op : DiskOp}
    (h : op ∈ db.diskOps ev) : op.keepsWal = true := by
  cases ev with
  | apply coins => exact nomatch hev
  | flush => exact nomatch hev
  | maybeFlush => exact nomatch hev
  | reopen opts coins => exact nomatch hev
  | finishWriter =>
    simp only [DB.diskOps] at h
    split at h
    · split at h
      · rw [List.mem_singleton.1 h]
        rfl
      · simp at h
    · simp at h
  | commit =>
    simp only [DB.diskOps] at h
    split at h
    · split at h
      · simp at h
      · rw [List.mem_singleton.1 h]
        rfl
    · simp at h
  | startWriter =>
    rw [List.mem_singleton.1 h]
    rfl
  | unlink number =>
    rw [List.mem_singleton.1 h]
    rfl
  | _ => simp [DB.diskOps] at h

/-- The tables a step installs are made of the memtable or of a piece of the round. -/
theorem diskOps_install {ev : Event} {n : Nat} {file : Bytes}
    (h : .install n file ∈ db.diskOps ev) : ∃ number level es fm,
      DB.buildTable number level es = some (file, fm) ∧
        (es = db.memtable.entries ∨ es ∈ Job.pieces db.job) := by
  have hflush : .install n file ∈ db.flushDiskOps → ∃ number level es fm,
      DB.buildTable number level es = some (file, fm) ∧
        (es = db.memtable.entries ∨ es ∈ Job.pieces db.job) := by
    intro h
    rcases flushDiskOps_cases db with he | ⟨file', fm, hbuild, he⟩
    · simp [he] at h
    · simp only [he, DB.flushOps, List.mem_cons, reduceCtorEq, DiskOp.install.injEq,
        List.not_mem_nil, or_false, false_or] at h
      exact ⟨_, _, _, fm, h.2 ▸ hbuild, Or.inl rfl⟩
  cases ev with
  | flush => exact hflush h
  | maybeFlush =>
    simp only [DB.diskOps] at h
    split at h
    · exact hflush h
    · simp at h
  | finishWriter =>
    simp only [DB.diskOps] at h
    split at h
    · rename_i job chunks number chunk outputs hj
      split at h
      · rename_i file' fm hbuild
        rw [List.mem_singleton, DiskOp.install.injEq] at h
        exact ⟨_, _, _, fm, h.2 ▸ hbuild, Or.inr (by simp [Job.pieces, hj])⟩
      · simp at h
    · simp at h
  | commit =>
    simp only [DB.diskOps] at h
    split at h
    · split at h <;> simp at h
    · simp at h
  | reopen opts coins =>
    have h : .install n file ∈ DB.openOps db.dir := h
    exact absurd h openOps_not_install
  | _ => simp [DB.diskOps] at h

/-- A crash in the append of a batch. -/
theorem crashIn_apply (dir : Dir) (records : List Wal.Record) (done cut : Nat) :
    ∃ p, p <+: records.flatMap Wal.encodeRecord ∧
      (done ≠ 0 → p = records.flatMap Wal.encodeRecord) ∧
      dir.crashIn [.appendWal records] done cut = { dir with wal := some (dir.wal.getD [] ++ p) } := by
  cases done with
  | zero => exact ⟨_, List.take_prefix cut _, fun h => absurd rfl h, rfl⟩
  | succ done =>
    exact ⟨_, List.prefix_rfl, fun _ => rfl,
      by simp [Dir.crashIn, Dir.execAll, Dir.exec, Wal.appendBatch]⟩

end Steps

namespace Wal

/-- Of a log cut at any byte nothing is read but records that were written. -/
theorem replay_prefix {rs : List Record} (hs : ∀ r ∈ rs, r.Short) {p : Bytes}
    (hp : p <+: rs.flatMap encodeRecord) : replay (some p) <+: rs := by
  induction rs generalizing p with
  | nil =>
    rw [List.prefix_nil.1 hp]
    exact List.nil_prefix
  | cons r₀ rs ih =>
    cases hread : readRecord p with
    | none =>
      rw [replay, Frame.records_stop hread]
      exact List.nil_prefix
    | some x =>
      obtain ⟨r, rest⟩ := x
      obtain ⟨rfl, hr⟩ := readRecord_eq_some hread
      obtain ⟨q, hq⟩ := hp
      rw [List.flatMap_cons, List.append_assoc] at hq
      have hback := takesBack_readRecord hr (rest ++ q)
      -- the record that is read is the first one written, or that one is over the limit
      by_cases h₀ : r₀.Fits
      · rw [hq, takesBack_readRecord h₀] at hback
        obtain ⟨rfl, hrest⟩ := Prod.mk.inj (Option.some.inj hback)
        rw [replay, Frame.records_cons consumes_readRecord hread]
        exact List.cons_prefix_cons.2 ⟨rfl, ih (fun r hr => hs r (List.mem_cons_of_mem _ hr))
          ⟨q, hrest.symm⟩⟩
      · rw [hq, readRecord_long (hs r₀ List.mem_cons_self) h₀] at hback
        cases hback

end Wal

end Keystone
