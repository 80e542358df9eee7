/-
  Sequence numbers are fresh.

  `DB.SeqsBelow db writes` bounds every sequence number there is after `writes` write calls:
  those in memory, in the log and in the open tables by the counter, those in any table file by
  the number of calls. It needs neither the MANIFEST nor the limits of the readers: whatever an
  open finds, it recovers only what was written, and sets the counter above it.

  `seqs_fresh`: in every run of calls, engine steps, reopens and crashes, with keys and values
  shorter than 2^32 and fewer than 2^64 - 1 calls, every number a call gets is above every entry
  then present.
-/
import Keystone.Provenance
import Keystone.Sequence

namespace Keystone

/-! ## Bounds -/

/-- The lengths fit their fields, and the number is below `n`. -/
structure Wal.Record.Below (n : Nat) (r : Wal.Record) : Prop where
  short : r.Short
  lt : r.seq.toNat < n

/-- The numbers of the entries are below `n`. -/
def SeqsLt (n : Nat) (es : List Entry) : Prop := ∀ e ∈ es, e.seq.toNat < n

section Bounds

variable {n m : Nat}

theorem Wal.Record.Below.mono {r : Wal.Record} (h : r.Below n) (hn : n ≤ m) : r.Below m :=
  ⟨h.short, lt_of_lt_of_le h.lt hn⟩

theorem Wal.Record.Below.entry {r : Wal.Record} (h : r.Below n) : r.entry.seq.toNat < n := by
  rw [Wal.Record.entry_seq]
  exact h.lt

theorem SeqsLt.mono (hn : n ≤ m) : ∀ es, SeqsLt n es → SeqsLt m es :=
  fun _ h e he => lt_of_lt_of_le (h e he) hn

/-- The same bound of what is read back. -/
theorem SeqsLt.contents {es : List Entry} (h : SeqsLt n es) : SeqsLt n (contentsOf es) := by
  intro e he
  obtain ⟨e', he', rfl⟩ := List.mem_map.1 ((contentsOf_isPrefix es).subset he)
  exact h e' he'

theorem mergeClosed_seqsLt : MergeClosed (SeqsLt n) := mergeClosed_forall fun _ h => h

theorem maxSeq_le_of_seqsLt {t : SSTable} (h : t.Of (SeqsLt (n + 1))) : t.maxSeq.toNat ≤ n := by
  obtain ⟨es, rfl, -, hes⟩ := h
  by_cases hnil : es = []
  · subst hnil
    exact Nat.zero_le n
  · obtain ⟨e, he, hq⟩ := maxSeqOf_mem hnil
    have := hes e he
    show (maxSeqOf es).toNat ≤ n
    rw [← hq]
    omega

end Bounds

/-! ## The state -/

/-- Every sequence number there is after `writes` write calls. -/
structure DB.SeqsBelow (db : DB) (writes : Nat) : Prop where
  next : db.nextSeq.toNat ≤ writes + 1
  wal : ∃ rs : List Wal.Record, db.dir.wal = some (rs.flatMap Wal.encodeRecord) ∧
    ∀ r ∈ rs, r.Below db.nextSeq.toNat
  mem : SeqsLt db.nextSeq.toNat db.memtable.entries
  inflight : ∀ r ∈ db.inflight, r.Below db.nextSeq.toNat
  tables : db.TablesOf (SeqsLt db.nextSeq.toNat) (SeqsLt (writes + 1))

/-- A log as a crash leaves it: it may be cut. -/
def WalBelow (n : Nat) (wal : Option Bytes) : Prop :=
  ∃ rs : List Wal.Record, wal.getD [] <+: rs.flatMap Wal.encodeRecord ∧ ∀ r ∈ rs, r.Below n

/-! ## Opening -/

section Opening

variable {dir : Dir} {writes : Nat}

theorem WalBelow.replay {n : Nat} {wal : Option Bytes} (h : WalBelow n wal) :
    ∀ r ∈ Wal.replay wal, r.Below n := by
  obtain ⟨rs, hwal, hrs⟩ := h
  intro r hr
  cases wal with
  | none => simp [Wal.replay] at hr
  | some p => exact hrs r ((Wal.replay_prefix (fun r hr => (hrs r hr).short) hwal).subset hr)

/-- What an open recovers, it sets the counter above. -/
theorem DB.SeqsBelow.of_open {opts : Options} {coins : List (List Bool)} {db : DB}
    (hwal : WalBelow (writes + 1) dir.wal)
    (hdisk : ∀ p ∈ dir.sst, FileOf (SeqsLt (writes + 1)) p.2) (hlim : writes < 2 ^ 64 - 1)
    (hopen : DB.open opts coins dir = .ok db) : db.SeqsBelow writes := by
  have htables := DB.TablesOf.of_open hdisk hopen
  have hrec := hwal.replay
  obtain ⟨files, -, rfl⟩ := DB.open_inv hopen
  have htab : ∀ fm ∈ (DB.openVersion files).allFiles, fm.table.Of (SeqsLt (writes + 1)) :=
    fun fm hfm => htables.tables fm (List.mem_append_left _ hfm)
  obtain ⟨h1, h2, h3⟩ := openSeq_spec hlim (fun r hr => Nat.le_of_lt_succ (hrec r hr).lt)
    fun fm hfm => maxSeq_le_of_seqsLt (htab fm hfm)
  have hbelow : ∀ r ∈ Wal.replay dir.wal,
      r.Below (DB.openSeq (Wal.replay dir.wal) (DB.openVersion files)).toNat :=
    fun r hr => ⟨(hrec r hr).short, UInt64.lt_iff_toNat_lt.1 (h1 r hr)⟩
  refine ⟨h3, ⟨Wal.replay dir.wal, execAll_openOps_wal dir, hbelow⟩, fun e he => ?_, by simp,
    ⟨fun fm hfm => ?_, by simp [Job.pieces], htables.disk⟩⟩
  · rcases Memtable.mem_applyAll.1 he with ⟨r, hr, rfl⟩ | he
    · exact (hbelow r hr).entry
    · simp at he
  · simp only [DB.openTables, Job.outputsOf, Option.map_none, Option.getD_none,
      List.append_nil] at hfm
    obtain ⟨es, ht, hmax, -⟩ := htab fm hfm
    refine ⟨es, ht, hmax, fun e he => UInt64.lt_iff_toNat_lt.1 ?_⟩
    refine lt_of_le_of_lt ?_ (h2 fm hfm)
    rw [ht]
    exact le_maxSeqOf he

end Opening

/-! ## Steps -/

namespace DB.SeqsBelow

variable {db db' : DB} {writes : Nat}

/-- The tables, if the counter stays. -/
theorem step_tables (h : db.SeqsBelow writes) {ev : Event}
    (hev : ∀ opts coins, ev ≠ .reopen opts coins) (hseq : db'.nextSeq = db.nextSeq)
    (hstep : db.step ev = some db') :
    db'.TablesOf (SeqsLt db'.nextSeq.toNat) (SeqsLt (writes + 1)) := by
  rw [hseq]
  exact h.tables.step mergeClosed_seqsLt (SeqsLt.mono h.next) h.mem hev hstep

theorem assign (h : db.SeqsBelow writes) {ops : List Op} (hops : ∀ op ∈ ops, op.Short)
    (hlim : writes + ops.length < 2 ^ 64 - 1) (hstep : db.assign ops = some db') :
    db'.SeqsBelow (writes + ops.length) := by
  obtain ⟨-, -, rfl⟩ := DB.assign_inv hstep
  have hnext := h.next
  have hlt : db.nextSeq.toNat + ops.length < 2 ^ 64 := by omega
  have hadd : (db.nextSeq + UInt64.ofNat ops.length).toNat = db.nextSeq.toNat + ops.length :=
    toNat_add_ofNat hlt
  have hle : db.nextSeq.toNat ≤ (db.nextSeq + UInt64.ofNat ops.length).toNat := by omega
  obtain ⟨rs, hwal, hrs⟩ := h.wal
  have htables := h.tables
  refine ⟨by show (db.nextSeq + UInt64.ofNat ops.length).toNat ≤ _; omega,
    ⟨rs, hwal, fun r hr => (hrs r hr).mono hle⟩, SeqsLt.mono hle _ h.mem, fun r hr => ?_,
    ⟨fun fm hfm => (htables.tables fm hfm).imp (SeqsLt.mono hle),
      fun es hes => SeqsLt.mono hle _ (htables.pieces es hes),
      fun p hp => (htables.disk p hp).imp (SeqsLt.mono (by omega))⟩⟩
  obtain ⟨op, hop, seq, hr'⟩ := mem_batchRecords hr
  refine ⟨hr' ▸ hops op hop, ?_⟩
  have := ((batchRecords_seq hlt).1 r hr).2
  show r.seq.toNat < (db.nextSeq + UInt64.ofNat ops.length).toNat
  omega

theorem walBelow (h : db.SeqsBelow writes) : WalBelow (writes + 1) db.dir.wal := by
  obtain ⟨rs, hwal, hrs⟩ := h.wal
  refine ⟨rs, ?_, fun r hr => (hrs r hr).mono h.next⟩
  rw [hwal]
  exact List.prefix_rfl

/-- Every step of the engine but the assignment. -/
theorem step (h : db.SeqsBelow writes) (hlim : writes < 2 ^ 64 - 1) {ev : Event}
    (hev : ∀ ops, ev ≠ .assign ops) (hstep : db.step ev = some db') : db'.SeqsBelow writes := by
  have hother : ev.ofWriters = false → db'.SeqsBelow writes := by
    intro hw
    obtain ⟨hseq, hinf⟩ := (DB.step_frame hstep).writers hw
    have htables := h.step_tables (by rintro opts coins rfl; exact nomatch hw) hseq hstep
    have hnext : db'.nextSeq.toNat ≤ writes + 1 := hseq ▸ h.next
    rcases DB.step_flushes hw hstep with ⟨-, hwal, hmem⟩ | ⟨-, hwal, hmem⟩
    · exact ⟨hnext, ⟨[], hwal, by simp⟩, by rw [hmem]; simp [SeqsLt], hinf ▸ hseq ▸ h.inflight,
        htables⟩
    · exact ⟨hnext, hwal ▸ hseq ▸ h.wal, hmem ▸ hseq ▸ h.mem, hinf ▸ hseq ▸ h.inflight, htables⟩
  cases ev with
  | assign ops => exact absurd rfl (hev ops)
  | apply coins =>
    have hr : ∀ opts coins', Event.apply coins ≠ .reopen opts coins' := by simp
    have htables := h.step_tables hr (by obtain ⟨-, rfl⟩ := DB.apply_inv hstep; rfl) hstep
    obtain ⟨-, rfl⟩ := DB.apply_inv hstep
    obtain ⟨rs, hwal, hrs⟩ := h.wal
    refine ⟨h.next, ⟨rs ++ db.inflight, ?_, ?_⟩, fun e he => ?_, by simp, htables⟩
    · simp [hwal, Wal.appendBatch]
    · exact fun r hr => (List.mem_append.1 hr).elim (hrs r) (h.inflight r)
    · rcases Memtable.mem_applyAll.1 he with ⟨r, hr, rfl⟩ | he
      · exact (h.inflight r hr).entry
      · exact h.mem e he
  | reopen opts coins =>
    obtain ⟨-, -, -, -, hopen⟩ := DB.reopen_inv hstep
    exact of_open h.walBelow h.tables.disk hlim hopen
  | _ => exact hother rfl

/-! ## Crashes -/

/-- The log when the crash comes in a step. -/
theorem crashIn_wal (h : db.SeqsBelow writes) (ev : Event) (done cut : Nat) :
    WalBelow (writes + 1) (db.dir.crashIn (db.diskOps ev) done cut).wal := by
  obtain ⟨rs, hwal, hrs⟩ := h.walBelow
  by_cases hlog : ev.ofLog = false
  · refine ⟨rs, ?_, hrs⟩
    rw [crashIn_eq fun op hop => keepsWal_not_append (diskOps_keepsWal hlog hop),
      execAll_keepsWal fun op hop => diskOps_keepsWal hlog (List.mem_of_mem_take hop)]
    exact hwal
  · have hflush : ∀ n, (db.dir.execAll (db.flushDiskOps.take n)).wal.getD [] <+:
        rs.flatMap Wal.encodeRecord := by
      intro n
      rcases flushDiskOps_cases db with he | ⟨file, fm, -, he⟩ <;> rw [he]
      · rw [List.take_nil]
        exact hwal
      · exact (flushOps_take_wal _ _ _ _ n).trans hwal
    have hcrash : (db.dir.crashIn db.flushDiskOps done cut).wal.getD [] <+:
        rs.flatMap Wal.encodeRecord := by
      rw [crashIn_eq fun op hop => flushDiskOps_not_append hop]
      exact hflush done
    cases ev with
    | apply coins =>
      obtain ⟨rs, hwal, hrs⟩ := h.wal
      obtain ⟨p, hp, -, he⟩ := crashIn_apply db.dir db.inflight done cut
      refine ⟨rs ++ db.inflight, ?_, fun r hr => ?_⟩
      · show (db.dir.crashIn [.appendWal db.inflight] done cut).wal.getD [] <+: _
        rw [he, hwal, List.flatMap_append]
        exact (List.prefix_append_right_inj _).2 hp
      · exact ((List.mem_append.1 hr).elim (hrs r) (h.inflight r)).mono h.next
    | flush => exact ⟨rs, hcrash, hrs⟩
    | maybeFlush =>
      refine ⟨rs, ?_, hrs⟩
      simp only [DB.diskOps]
      split
      · exact hcrash
      · rw [crashIn_eq (by simp), List.take_nil]
        exact hwal
    | reopen opts coins =>
      refine ⟨rs, ?_, hrs⟩
      show (db.dir.crashIn (DB.openOps db.dir) done cut).wal.getD [] <+: _
      rw [crashIn_eq fun op hop => openOps_not_append hop]
      exact (openOps_take_wal db.dir done).trans hwal
    | _ => exact absurd rfl hlog

/-- A crash in any step, the interrupted opens, and the one that goes through. -/
theorem crash (h : db.SeqsBelow writes) (hlim : writes < 2 ^ 64 - 1) {c : CrashAt}
    (hcrash : db.crash c = some db') : db'.SeqsBelow writes := by
  have hopens : ∀ (opens : List Nat) (dir : Dir), WalBelow (writes + 1) dir.wal →
      WalBelow (writes + 1) (opens.foldl Dir.crashOpen dir).wal := by
    intro opens
    induction opens with
    | nil => exact fun _ hd => hd
    | cons n opens ih =>
      rintro dir ⟨rs, hwal, hrs⟩
      exact ih _ ⟨rs, (openOps_take_wal dir n).trans hwal, hrs⟩
  exact of_open (hopens c.opens _ (h.crashIn_wal c.ev c.done c.cut))
    (h.tables.crashDir (SeqsLt.mono h.next) h.mem c) hlim (DB.crash_inv hcrash).2

end DB.SeqsBelow

/-! ## Runs -/

/-- The calls that get their number in this event. -/
def LifeEvent.calls : LifeEvent → List Op
  | .run ev => ev.calls
  | .crash _ => []

/-- How many calls a run has. -/
def totalWrites (evs : List LifeEvent) : Nat := (evs.map fun ev => ev.calls.length).sum

/-- Keys and values are shorter than 2^32. -/
def ShortCalls (_ : DB) (ev : LifeEvent) : Prop := ∀ op ∈ ev.calls, op.Short

instance (db : DB) (ev : LifeEvent) : Decidable (ShortCalls db ev) :=
  inferInstanceAs (Decidable (∀ op ∈ ev.calls, op.Short))

theorem DB.SeqsBelow.live {db db' : DB} {writes : Nat} {ev : LifeEvent} (h : db.SeqsBelow writes)
    (hshort : ShortCalls db ev) (hlim : writes + ev.calls.length < 2 ^ 64 - 1)
    (hstep : db.live ev = some db') : db'.SeqsBelow (writes + ev.calls.length) := by
  cases ev with
  | crash c => exact h.crash hlim hstep
  | run ev =>
    have hev : db.step ev = some db' := hstep
    cases ev with
    | assign ops => exact h.assign hshort hlim hev
    | _ => exact h.step hlim (by simp) hev

theorem DB.seqsBelow_create (opts : Options) : (DB.create opts).SeqsBelow 0 := by
  refine ⟨le_rfl, ⟨[], rfl, by simp⟩, ?_, by simp [DB.create], .create opts⟩
  show SeqsLt _ Memtable.fresh.entries
  simp [SeqsLt]

/-- Every entry of the memtable, of the log and of the live tables has a number below `q`. -/
structure DB.FreshAt (db : DB) (q : UInt64) : Prop where
  mem : ∀ e ∈ db.memtable.entries, e.seq < q
  wal : ∀ r ∈ Wal.replay db.dir.wal, r.seq < q
  tables : ∀ fm ∈ db.version.allFiles, ∃ es, fm.table.entries = .ok es ∧ ∀ e ∈ es, e.seq < q

theorem DB.FreshAt.mono {db : DB} {p q : UInt64} (h : db.FreshAt p) (hpq : p ≤ q) : db.FreshAt q where
  mem := fun e he => lt_of_lt_of_le (h.mem e he) hpq
  wal := fun r hr => lt_of_lt_of_le (h.wal r hr) hpq
  tables := fun fm hfm => by
    obtain ⟨es, hes, hlt⟩ := h.tables fm hfm
    exact ⟨es, hes, fun e he => lt_of_lt_of_le (hlt e he) hpq⟩

theorem DB.SeqsBelow.freshAt {db : DB} {writes : Nat} (h : db.SeqsBelow writes) :
    db.FreshAt db.nextSeq where
  mem := fun e he => UInt64.lt_iff_toNat_lt.2 (h.mem e he)
  wal := fun r hr => by
    obtain ⟨rs, hwal, hrs⟩ := h.wal
    rw [hwal] at hr
    exact UInt64.lt_iff_toNat_lt.2 (hrs r ((Wal.replay_prefix (fun r hr => (hrs r hr).short)
      List.prefix_rfl).subset hr)).lt
  tables := fun fm hfm => by
    obtain ⟨es, hes, -, hread⟩ := (h.tables.tables fm (List.mem_append_left _ hfm)).entries
    exact ⟨_, hread, fun e he => UInt64.lt_iff_toNat_lt.2 (hes.contents e he)⟩

/-- **Freshness.** After any run of calls, engine steps, reopens and crashes the counter is above
    every entry present, and so is every number the next batch gets. -/
theorem seqs_fresh {opts : Options} {evs : List LifeEvent} {db : DB}
    (hshort : Steps.Meets DB.live ShortCalls (DB.create opts) evs)
    (hrun : Steps.run DB.live (DB.create opts) evs = some db)
    (htotal : totalWrites evs < 2 ^ 64 - 1) :
    db.FreshAt db.nextSeq ∧ ∀ ops db', db.assign ops = some db' →
      totalWrites evs + ops.length < 2 ^ 64 - 1 → ∀ r ∈ db'.inflight, db.FreshAt r.seq := by
  have hstep : ∀ s past ev s', (totalWrites past < 2 ^ 64 - 1 → s.SeqsBelow (totalWrites past)) →
      ShortCalls s ev → s.live ev = some s' → totalWrites (past ++ [ev]) < 2 ^ 64 - 1 →
      s'.SeqsBelow (totalWrites (past ++ [ev])) := by
    intro s past ev s' h hsh hs hlim
    have hsum : totalWrites (past ++ [ev]) = totalWrites past + ev.calls.length := by
      simp [totalWrites]
    rw [hsum] at hlim ⊢
    exact (h (by omega)).live hsh hlim hs
  have h : db.SeqsBelow (totalWrites evs) := @Steps.run_trace _ _ DB.live ShortCalls _ _ evs
    (fun s past => totalWrites past < 2 ^ 64 - 1 → s.SeqsBelow (totalWrites past)) hstep []
    (fun _ => DB.seqsBelow_create opts) hshort hrun htotal
  refine ⟨h.freshAt, fun ops db' hw hlim r hr => ?_⟩
  obtain ⟨-, -, rfl⟩ := DB.assign_inv hw
  have hnext := h.next
  exact h.freshAt.mono (UInt64.le_iff_toNat_le.2 ((batchRecords_seq (by omega)).1 r hr).1)

theorem seqs_fresh_crash : ∃ db, Steps.run DB.live (DB.create {}) crashRun = some db ∧
    db.nextSeq = 4 ∧ db.FreshAt db.nextSeq := by
  have h : ((Steps.run DB.live (DB.create {}) crashRun).map DB.nextSeq) = some 4 := by
    decide +kernel
  obtain ⟨db, hdb, hseq⟩ := Option.map_eq_some_iff.1 h
  exact ⟨db, hdb, hseq, (seqs_fresh (by decide +kernel) hdb (by decide)).1⟩

end Keystone
