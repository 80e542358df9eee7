/-
  Entries and sequence numbers along a run.

  * `DB.entries`: everything the memtable and the live tables hold.
  * `entries_step`: only `apply` adds entries, and only a commit or a reopen can lose any.
  * `DB.SeqsOk`: the counter is ahead of every entry, and the batch in flight lies between; it
    is kept as long as the counter does not wrap around.
-/
import Keystone.Recovery

namespace Keystone

/-- The entries of all live tables. -/
def DB.tables (db : DB) : List Entry := db.version.allFiles.flatMap FileMeta.contents

/-- Everything the engine holds. -/
def DB.entries (db : DB) : List Entry := db.memtable.entries ++ db.tables

theorem DB.mem_tables {db : DB} {e : Entry} :
    e ∈ db.tables ↔ ∃ fm ∈ db.version.allFiles, e ∈ fm.contents := List.mem_flatMap

theorem DB.mem_entries {db : DB} {e : Entry} :
    e ∈ db.entries ↔ e ∈ db.memtable.entries ∨ ∃ fm ∈ db.version.allFiles, e ∈ fm.contents := by
  rw [DB.entries, List.mem_append, DB.mem_tables]

/-- The entries a step adds. -/
def DB.applied (db : DB) : Event → List Entry
  | .apply _ => db.inflight.map Wal.Record.entry
  | _ => []

/-- Everything outside a round. -/
def DB.outside (db : DB) (job : CompactionJob) : List Entry :=
  db.memtable.entries ++ (job.remaining db.version.allFiles).flatMap FileMeta.contents

/-- What a step does to the entries and to the counter: all but five events leave them alone. -/
inductive DB.StepKind (db : DB) (ev : Event) (db' : DB) : Prop where
  | assign (ops : List Op) (hev : ev = .assign ops) (h : db.assign ops = some db')
  | apply (coins : List (List Bool)) (hev : ev = .apply coins) (h : db.apply coins = some db')
  | flush (hev : ev = .flush ∨ ev = .maybeFlush) (hnew : db.newTables ev = [db.memtable.entries])
      (h : db.flush = some db')
  | commit (hev : ev = .commit) (h : db.commit = some db')
  | reopen (opts : Options) (coins : List (List Bool)) (hev : ev = .reopen opts coins)
      (h : db.reopen opts coins = some db')
  | quiet (hev : db.applied ev = []) (mem : db'.memtable = db.memtable)
      (ver : db'.version = db.version) (inflight : db'.inflight = db.inflight)
      (seq : db'.nextSeq = db.nextSeq)

theorem DB.step_kind {db db' : DB} {ev : Event} (h : db.step ev = some db') : db.StepKind ev db' := by
  have hf := DB.step_frame h
  have hquiet : ev.ofWriters = false → ev.ofLog = false → ev.ofVersion = false →
      db.applied ev = [] → db.StepKind ev db' := fun h1 h2 h3 h4 =>
    .quiet h4 (hf.log h2).1 (hf.version h3) (hf.writers h1).2 (hf.writers h1).1
  cases ev with
  | assign ops => exact .assign ops rfl h
  | apply coins => exact .apply coins rfl h
  | flush => exact .flush (Or.inl rfl) rfl h
  | reopen opts coins => exact .reopen opts coins rfl h
  | commit => exact .commit rfl h
  | maybeFlush =>
    rcases DB.maybeFlush_inv h with ⟨ht, h⟩ | ⟨-, rfl⟩
    · exact .flush (Or.inr rfl) (if_pos ht) h
    · exact .quiet rfl rfl rfl rfl rfl
  | _ => exact hquiet rfl rfl rfl rfl

/-! ## Entries -/

section Entries

variable {db db' : DB}

theorem entries_apply {coins : List (List Bool)} (h : db.apply coins = some db') :
    db'.entries.Perm (db.inflight.map Wal.Record.entry ++ db.entries) := by
  obtain ⟨-, rfl⟩ := DB.apply_inv h
  have hp := db.memtable.entries_applyAll db.inflight coins
  refine (hp.append_right _).trans ?_
  rw [List.append_assoc]
  exact List.Perm.refl _

theorem outside_apply {coins : List (List Bool)} (h : db.apply coins = some db')
    (job : CompactionJob) :
    (db'.outside job).Perm (db.inflight.map Wal.Record.entry ++ db.outside job) := by
  obtain ⟨-, rfl⟩ := DB.apply_inv h
  have hp := db.memtable.entries_applyAll db.inflight coins
  refine (hp.append_right _).trans ?_
  rw [List.append_assoc]
  exact List.Perm.refl _

/-- A flush moves the entries of the memtable into a file. -/
theorem entries_flush (hw : db.Stored) (hfit : BlocksFit db.memtable.entries)
    (h : db.flush = some db') : db'.entries.Perm db.entries := by
  rcases DB.flush_inv hw hfit h with ⟨-, rfl⟩ | ⟨-, fm, -, -, -, hcont, rfl⟩
  · exact List.Perm.refl _
  · have hp := (allFiles_pushL0 db.version fm).flatMap_right FileMeta.contents
    simp only [DB.entries, DB.tables, Memtable.entries_fresh, List.nil_append]
    refine hp.trans ?_
    rw [List.flatMap_append, List.flatMap_singleton, hcont]
    exact List.perm_append_comm

/-- The new file is not part of a round in progress. -/
theorem outside_flush (hw : db.Stored) (hfit : BlocksFit db.memtable.entries)
    (h : db.flush = some db') {j : Job} (hj : db.job = some j) :
    (db'.outside j.job).Perm (db.outside j.job) := by
  rcases DB.flush_inv hw hfit h with ⟨-, rfl⟩ | ⟨-, fm, -, hnum, -, hcont, rfl⟩
  · exact List.Perm.refl _
  · have hnew : fm.number ∉ j.job.inputs.map FileMeta.number := by
      intro hmem
      obtain ⟨f, hf, he⟩ := List.mem_map.1 hmem
      have hmem' : f ∈ db.version.allFiles := hw.tables.inputs f (by rw [hj]; exact hf)
      have := hw.tables.used_lt f.number (List.mem_append_left _
        (List.mem_map_of_mem (List.mem_append_left _ hmem')))
      omega
    have hrem : j.job.remaining (db.version.allFiles ++ [fm]) =
        j.job.remaining db.version.allFiles ++ [fm] := by
      simp only [CompactionJob.remaining, List.filter_append]
      congr 1
      rw [List.filter_eq_self]
      intro f hf
      rw [List.mem_singleton.1 hf]
      exact decide_eq_true hnew
    have hp := ((allFiles_pushL0 db.version fm).filter fun f =>
      decide (f.number ∉ j.job.inputs.map FileMeta.number)).flatMap_right FileMeta.contents
    simp only [DB.outside, Memtable.entries_fresh, List.nil_append]
    refine hp.trans ?_
    show ((j.job.remaining (db.version.allFiles ++ [fm])).flatMap FileMeta.contents).Perm _
    rw [hrem, List.flatMap_append, List.flatMap_singleton, hcont]
    exact List.perm_append_comm

/-- **Only `apply` adds entries**; only a commit or a reopen can lose any. -/
theorem entries_step (hw : db.Stored) {ev : Event} (hfit : db.TablesFit ev)
    (h : db.step ev = some db') (hc : ev ≠ .commit) (hr : ∀ opts coins, ev ≠ .reopen opts coins) :
    db'.entries.Perm (db.applied ev ++ db.entries) := by
  cases DB.step_kind h with
  | assign ops hev h =>
    obtain ⟨-, -, rfl⟩ := DB.assign_inv h
    subst hev
    exact List.Perm.refl _
  | apply coins hev h =>
    subst hev
    exact entries_apply h
  | flush hev hnew h =>
    have : db.applied ev = [] := by rcases hev with rfl | rfl <;> rfl
    rw [this]
    exact entries_flush hw (hfit.of_new hnew) h
  | commit hev h => exact absurd hev hc
  | reopen opts coins hev h => exact absurd hev (hr opts coins)
  | quiet hev mem ver inflight seq =>
    rw [hev, DB.entries, DB.tables, mem, ver]
    exact List.Perm.refl _

/-- Everything an open finds. -/
theorem Opened.entries_perm {dir : Dir} {records : List Wal.Record} {ver : Version}
    {opts : Options} (ho : Opened dir records ver opts db) :
    db.entries.Perm (records.map Wal.Record.entry ++ ver.allFiles.flatMap FileMeta.contents) :=
  ho.mem.append ((allFiles_perm ho.files).flatMap_right FileMeta.contents)

/-- A reopen finds what was there. -/
theorem entries_reopen (hw : db.WellFormed) (hm : ManifestOk db.dir.manifest db.version)
    (hread : Manifest.ReaderOk db.version.toManifest) {opts : Options} {coins : List (List Bool)}
    (h : db.reopen opts coins = some db') : db'.entries.Perm db.entries := by
  obtain ⟨-, -, -, -, hopen⟩ := DB.reopen_inv h
  obtain ⟨records, hrec, hR⟩ := hw.recoverable hm hread
  exact (hR.opened hopen).entries_perm.trans (hrec.symm.append_right _)

end Entries

/-! ## Sequence numbers -/

theorem toNat_add_ofNat {n : UInt64} {k : Nat} (h : n.toNat + k < 2 ^ 64) :
    (n + UInt64.ofNat k).toNat = n.toNat + k := by
  rw [UInt64.toNat_add, UInt64.toNat_ofNat_of_lt' (by unfold UInt64.size; omega),
    Nat.mod_eq_of_lt h]

/-- The batch gets consecutive numbers from the counter on. -/
theorem batchRecords_seq {nextSeq : UInt64} {ops : List Op}
    (hwrap : nextSeq.toNat + ops.length < 2 ^ 64) :
    (∀ r ∈ batchRecords nextSeq ops, nextSeq.toNat ≤ r.seq.toNat ∧
      r.seq.toNat < nextSeq.toNat + ops.length) ∧
    (batchRecords nextSeq ops).Pairwise fun a b => a.seq < b.seq := by
  induction ops generalizing nextSeq with
  | nil => simp [batchRecords]
  | cons op ops ih =>
    rw [List.length_cons] at hwrap ⊢
    have hone : (nextSeq + 1).toNat = nextSeq.toNat + 1 := toNat_add_ofNat (k := 1) (by omega)
    have ih := @ih (nextSeq + 1) (by omega)
    rw [hone] at ih
    refine ⟨fun r hr => ?_, List.pairwise_cons.2 ⟨fun r hr => ?_, ih.2⟩⟩
    · rcases List.mem_cons.1 hr with rfl | hr
      · exact ⟨le_rfl, by show nextSeq.toNat < _; omega⟩
      · have := ih.1 r hr
        omega
    · have := ih.1 r hr
      rw [UInt64.lt_iff_toNat_lt]
      show nextSeq.toNat < _
      omega

/-- The counter is ahead of every entry; the batch in flight is between, in order. -/
structure DB.SeqsOk (db : DB) : Prop where
  entries_lt : ∀ e ∈ db.entries, e.seq < db.nextSeq
  inflight_lt : ∀ r ∈ db.inflight, r.seq < db.nextSeq
  inflight_newer : ∀ r ∈ db.inflight, ∀ e ∈ db.entries, e.seq < r.seq
  inflight_order : db.inflight.Pairwise fun a b => a.seq < b.seq

/-- The counter does not wrap around. -/
def DB.NoWrap (db : DB) : Event → Prop
  | .assign ops => db.nextSeq.toNat + ops.length < 2 ^ 64
  | _ => True

/-- Fewer or the same entries. -/
theorem DB.SeqsOk.of_subset {db db' : DB} (h : db.SeqsOk) (hsub : ∀ e ∈ db'.entries, e ∈ db.entries)
    (hin : db'.inflight = db.inflight) (hseq : db'.nextSeq = db.nextSeq) : db'.SeqsOk where
  entries_lt := fun e he => hseq ▸ h.entries_lt e (hsub e he)
  inflight_lt := by
    rw [hin, hseq]
    exact h.inflight_lt
  inflight_newer := by
    rw [hin]
    exact fun r hr e he => h.inflight_newer r hr e (hsub e he)
  inflight_order := hin ▸ h.inflight_order

theorem DB.SeqsOk.assign {db db' : DB} (h : db.SeqsOk) {ops : List Op}
    (hwrap : db.nextSeq.toNat + ops.length < 2 ^ 64) (hstep : db.assign ops = some db') :
    db'.SeqsOk := by
  obtain ⟨-, hne, rfl⟩ := DB.assign_inv hstep
  obtain ⟨hb, hp⟩ := batchRecords_seq hwrap
  have hnext := toNat_add_ofNat hwrap
  have hpos : 0 < ops.length := List.length_pos_iff.2 hne
  constructor
  · intro e he
    have := UInt64.lt_iff_toNat_lt.1 (h.entries_lt e he)
    rw [UInt64.lt_iff_toNat_lt, hnext]
    omega
  · intro r hr
    rw [UInt64.lt_iff_toNat_lt, hnext]
    exact (hb r hr).2
  · intro r hr e he
    have := UInt64.lt_iff_toNat_lt.1 (h.entries_lt e he)
    rw [UInt64.lt_iff_toNat_lt]
    exact lt_of_lt_of_le this (hb r hr).1
  · exact hp

theorem DB.SeqsOk.apply {db db' : DB} (h : db.SeqsOk) {coins : List (List Bool)}
    (hstep : db.apply coins = some db') : db'.SeqsOk := by
  have hp := entries_apply hstep
  obtain ⟨-, rfl⟩ := DB.apply_inv hstep
  constructor
  · intro e he
    rcases List.mem_append.1 (hp.mem_iff.1 he) with he | he
    · obtain ⟨r, hr, rfl⟩ := List.mem_map.1 he
      rw [Wal.Record.entry_seq]
      exact h.inflight_lt r hr
    · exact h.entries_lt e he
  · simp
  · simp
  · exact List.Pairwise.nil

/-- Steps other than a commit or a reopen keep the counter ahead. -/
theorem DB.SeqsOk.step {db db' : DB} (h : db.SeqsOk) (hw : db.Stored) {ev : Event}
    (hwrap : db.NoWrap ev) (hfit : db.TablesFit ev) (hc : ev ≠ .commit)
    (hr : ∀ opts coins, ev ≠ .reopen opts coins) (hstep : db.step ev = some db') : db'.SeqsOk := by
  cases DB.step_kind hstep with
  | assign ops hev hstep =>
    subst hev
    exact h.assign hwrap hstep
  | apply coins hev hstep => exact h.apply hstep
  | flush hev hnew hstep =>
    have hp := entries_flush hw (hfit.of_new hnew) hstep
    refine h.of_subset (fun e he => hp.mem_iff.1 he) ?_ ?_
    · rcases DB.flush_shape hstep with ⟨-, rfl⟩ | ⟨-, -, file, fm, -, rfl⟩ <;> rfl
    · rcases DB.flush_shape hstep with ⟨-, rfl⟩ | ⟨-, -, file, fm, -, rfl⟩ <;> rfl
  | commit hev hstep => exact absurd hev hc
  | reopen opts coins hev hstep => exact absurd hev (hr opts coins)
  | quiet hev mem ver inflight seq =>
    refine h.of_subset (fun e he => ?_) inflight seq
    rwa [DB.entries, DB.tables, mem, ver] at he

/-- Applied entries are newer than everything there is. -/
theorem applied_newer {db : DB} (hs : db.SeqsOk) {ev : Event} {x : Entry} (hx : x ∈ db.applied ev)
    {e : Entry} (he : e ∈ db.entries) : e.seq < x.seq := by
  cases ev with
  | apply coins =>
    obtain ⟨r, hr, rfl⟩ := List.mem_map.1 hx
    rw [Wal.Record.entry_seq]
    exact hs.inflight_newer r hr e he
  | _ => simp [DB.applied] at hx

/-- They are in order among themselves. -/
theorem applied_order {db : DB} (hs : db.SeqsOk) (ev : Event) :
    (db.applied ev).Pairwise fun a b => a.seq < b.seq := by
  cases ev with
  | apply coins =>
    refine List.pairwise_map.2 (hs.inflight_order.imp fun h => ?_)
    simpa using h
  | _ => exact List.Pairwise.nil

theorem applied_inj {db : DB} (hs : db.SeqsOk) {ev : Event} {a b : Entry} (ha : a ∈ db.applied ev)
    (hb : b ∈ db.applied ev) (hq : a.seq = b.seq) : a = b := by
  have hnd : ((db.applied ev).map Entry.seq).Nodup :=
    List.pairwise_map.2 ((applied_order hs ev).imp fun h => ne_of_lt h)
  exact List.inj_on_of_nodup_map hnd ha hb hq

/-- Equal (key, seq) pairs stay equal entries. -/
theorem uniqueSeqs_applied {db : DB} (hu : UniqueSeqs db.entries) (hs : db.SeqsOk) (ev : Event) :
    UniqueSeqs (db.applied ev ++ db.entries) := by
  have hnew : ∀ x ∈ db.applied ev, ∀ e ∈ db.entries, e.seq < x.seq := fun x hx e he =>
    applied_newer hs hx he
  intro a ha b hb hk hq
  rcases List.mem_append.1 ha with ha | ha <;> rcases List.mem_append.1 hb with hb | hb
  · exact applied_inj hs ha hb hq
  · exact absurd hq (ne_of_gt (hnew a ha b hb))
  · exact absurd hq (ne_of_lt (hnew b hb a ha))
  · exact hu a ha b hb hk hq

theorem uniqueSeqs_step {db db' : DB} (hu : UniqueSeqs db.entries) (hs : db.SeqsOk)
    (hw : db.Stored) {ev : Event} (hfit : db.TablesFit ev) (hc : ev ≠ .commit)
    (hr : ∀ opts coins, ev ≠ .reopen opts coins) (h : db.step ev = some db') :
    UniqueSeqs db'.entries :=
  (uniqueSeqs_applied hu hs ev).subset fun _ he => (entries_step hw hfit h hc hr).mem_iff.1 he

/-! ## The counter after an open -/

theorem maxSeq_eq {fm : FileMeta} (h : fm.Ok) :
    fm.table.maxSeq = (fm.contents.map Entry.seq).foldl max 0 := by
  rw [h.table, List.foldl_map]
  rfl

theorem foldl_max_le {l : List UInt64} {n : Nat} (h : ∀ q ∈ l, q.toNat ≤ n) :
    (l.foldl max 0).toNat ≤ n := by
  rcases foldl_max_mem l 0 with hz | hmem
  · rw [hz]
    exact Nat.zero_le n
  · exact h _ hmem

/-- The counter is set one above the log and the footers, if that is possible at all. -/
theorem openSeq_spec {records : List Wal.Record} {ver : Version} {n : Nat} (hn : n < 2 ^ 64 - 1)
    (hrec : ∀ r ∈ records, r.seq.toNat ≤ n)
    (hfile : ∀ f ∈ ver.allFiles, f.table.maxSeq.toNat ≤ n) :
    (∀ r ∈ records, r.seq < DB.openSeq records ver) ∧
      (∀ f ∈ ver.allFiles, f.table.maxSeq < DB.openSeq records ver) ∧
      (DB.openSeq records ver).toNat ≤ n + 1 := by
  set maxWal := (records.map Wal.Record.seq).foldl max 0
  set maxSst := (ver.allFiles.map fun fm => fm.table.maxSeq).foldl max 0
  have hwal : maxWal.toNat ≤ n := foldl_max_le fun q hq => by
    obtain ⟨r, hr, rfl⟩ := List.mem_map.1 hq
    exact hrec r hr
  have hsst : maxSst.toNat ≤ n := foldl_max_le fun q hq => by
    obtain ⟨f, hf, rfl⟩ := List.mem_map.1 hq
    exact hfile f hf
  have hmax : (max maxWal maxSst).toNat ≤ n := by
    rcases max_choice maxWal maxSst with h | h <;> rw [h]
    · exact hwal
    · exact hsst
  have hnext : (DB.openSeq records ver).toNat = (max maxWal maxSst).toNat + 1 := by
    rw [DB.openSeq, UInt64.add_comm]
    exact toNat_add_ofNat (k := 1) (show (max maxWal maxSst).toNat + 1 < 2 ^ 64 by omega)
  have hle : ∀ q, q ≤ max maxWal maxSst → q < DB.openSeq records ver := by
    intro q hq
    have := UInt64.le_iff_toNat_le.1 hq
    rw [UInt64.lt_iff_toNat_lt, hnext]
    omega
  refine ⟨fun r hr => hle _ ?_, fun f hf => hle _ ?_, by omega⟩
  · exact le_trans ((le_foldl_max _ 0).2 r.seq (List.mem_map_of_mem hr)) (le_max_left _ _)
  · have hf' : f.table.maxSeq ≤ maxSst := (le_foldl_max _ 0).2 _ (List.mem_map_of_mem hf)
    exact le_trans hf' (le_max_right _ _)

/-- The counter is set one above every entry, if that is possible at all. -/
theorem lt_openSeq {records : List Wal.Record} {ver : Version} (hok : ∀ f ∈ ver.allFiles, f.Ok)
    {bound : UInt64} (hrec : ∀ r ∈ records, r.seq < bound)
    (hfile : ∀ f ∈ ver.allFiles, ∀ e ∈ f.contents, e.seq < bound) :
    (∀ r ∈ records, r.seq < DB.openSeq records ver) ∧
      ∀ f ∈ ver.allFiles, ∀ e ∈ f.contents, e.seq < DB.openSeq records ver := by
  have hlt : ∀ q, q < bound → q.toNat ≤ bound.toNat - 1 := fun q hq => by
    have := UInt64.lt_iff_toNat_lt.1 hq
    omega
  have hbound := bound.toNat_lt
  have hfoot : ∀ f ∈ ver.allFiles, f.table.maxSeq.toNat ≤ bound.toNat - 1 := fun f hf => by
    rw [maxSeq_eq (hok f hf)]
    refine foldl_max_le fun q hq => ?_
    obtain ⟨e, he, rfl⟩ := List.mem_map.1 hq
    exact hlt _ (hfile f hf e he)
  obtain ⟨h1, h2, -⟩ := openSeq_spec (show bound.toNat - 1 < 2 ^ 64 - 1 by omega)
    (fun r hr => hlt _ (hrec r hr)) hfoot
  refine ⟨h1, fun f hf e he => lt_of_le_of_lt ?_ (h2 f hf)⟩
  rw [maxSeq_eq (hok f hf)]
  exact (le_foldl_max _ 0).2 e.seq (List.mem_map_of_mem he)

/-- An open leaves the counter ahead of what it finds, if that is below some number. -/
theorem Opened.seqsOk {dir : Dir} {records : List Wal.Record} {ver : Version} {opts : Options}
    {db : DB} (ho : Opened dir records ver opts db) (hok : ∀ f ∈ ver.allFiles, f.Ok)
    {bound : UInt64} (hrec : ∀ r ∈ records, r.seq < bound)
    (hfile : ∀ f ∈ ver.allFiles, ∀ e ∈ f.contents, e.seq < bound) : db.SeqsOk := by
  have hall := allFiles_perm ho.files
  obtain ⟨h1, h2⟩ := lt_openSeq (fun f hf => hok f (hall.mem_iff.1 hf)) hrec
    fun f hf => hfile f (hall.mem_iff.1 hf)
  obtain ⟨-, hinf, -⟩ := ho.idle
  refine ⟨fun e he => ?_, by simp [hinf], by simp [hinf], by simp [hinf]⟩
  rw [ho.seq_eq]
  rcases DB.mem_entries.1 he with he | ⟨f, hf, he⟩
  · obtain ⟨r, hr, rfl⟩ := List.mem_map.1 (ho.mem.mem_iff.1 he)
    rw [Wal.Record.entry_seq]
    exact h1 r hr
  · exact h2 f hf e he

/-- A reopened state has its counter ahead. -/
theorem DB.SeqsOk.reopen {db db' : DB} (h : db.SeqsOk) (hw : db.WellFormed)
    {records : List Wal.Record} (hrec : db.memtable.entries.Perm (records.map Wal.Record.entry))
    {opts : Options} (ho : Opened db.dir records db.version opts db') : db'.SeqsOk := by
  refine @Opened.seqsOk _ _ _ _ _ ho hw.okFiles db.nextSeq (fun r hr => ?_) fun f hf e he => ?_
  · have := h.entries_lt r.entry (List.mem_append_left _ (hrec.mem_iff.2 (List.mem_map_of_mem hr)))
    rwa [Wal.Record.entry_seq] at this
  · exact h.entries_lt e (DB.mem_entries.2 (Or.inr ⟨f, hf, he⟩))

end Keystone
