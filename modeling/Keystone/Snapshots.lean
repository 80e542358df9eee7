/-
  Snapshots under concurrent writers.

  A leader numbers its batch under one mutex and applies it under another, and `get_snapshot`
  reads the counter under the second. `Writers.view` is the engine with the numbered batch in
  flight; every step of the writers is one step of the engine there, or none (`view_step`).

  * `snapshot_stable`: what is read at a live snapshot is the outcome of all writes that were
    numbered before it, at any later time, if nobody was between the two sections when it was
    taken.
  * `snapshot_between`: a snapshot taken between them changes its mind.
-/
import Keystone.GroupCommit
import Keystone.Visible

namespace Keystone

/-! ## The engine without its writers -/

/-- The other threads do not look at the batch in flight. -/
theorem DB.step_inflight (db : DB) (rs : List Wal.Record) {ev : Event}
    (hev : ev.ofWriters = false) : ({ db with inflight := rs } : DB).step ev =
      (db.step ev).map fun d => { d with inflight := rs } := by
  have hflush : ({ db with inflight := rs } : DB).flush =
      db.flush.map fun d => { d with inflight := rs } := by
    simp only [DB.flush, DB.allocSst]
    split
    · rfl
    · split
      · simp only [Option.bind_eq_bind, Option.bind_some]
        cases DB.buildTable db.nextSst 0 db.memtable.entries <;> rfl
      · rfl
  cases ev with
  | assign ops => cases hev
  | apply coins => cases hev
  | flush => exact hflush
  | maybeFlush =>
    simp only [DB.step, DB.maybeFlush]
    split
    · exact hflush
    · rfl
  | getSnapshot => rfl
  | releaseSnapshot seq => rfl
  | compactCall =>
    simp only [DB.step, DB.compactCall, DB.compactTurn]
    split <;> rfl
  | compactWake =>
    simp only [DB.step, DB.compactWake, DB.compactTurn]
    split
    · split <;> rfl
    · rfl
  | pick pq =>
    simp only [DB.step, DB.pick, DB.pickWith]
    split
    · split
      · rfl
      · cases DB.readInputs (pickCompaction db.opts db.forceCompact db.version).inputs <;> rfl
    · rfl
  | startWriter =>
    simp only [DB.step, DB.startWriter, DB.allocSst]
    split
    · split <;> rfl
    · rfl
  | finishWriter =>
    simp only [DB.step, DB.finishWriter]
    split
    · rename_i job chunks number chunk outputs hj
      cases DB.buildTable number job.outputLevel chunk <;> rfl
    · rfl
  | commit =>
    simp only [DB.step, DB.commit]
    split
    · split <;> rfl
    · rfl
  | unlink number =>
    simp only [DB.step, DB.unlink]
    split <;> rfl
  | reopen opts coins => cases hev

/-! ## The writers as one batch in flight -/

/-- The operations of the given calls. -/
def opsOf (calls : List Call) (ids : List Nat) : List Op :=
  ids.filterMap fun id => (calls[id]?).map Call.op

/-- The engine with the requests from `l` to `a` in flight: numbered, not applied. -/
def Writers.view (w : Writers) (l a : Nat) : DB :=
  { w.store with inflight := (recordsOf w.calls (List.range' l (a - l))).map Prod.snd }

/-- The entries applied so far. -/
def Writers.applied (w : Writers) : List Entry := (insertedIn w.log).map fun p => p.2.entry

/-- The step of the engine that a step of the writers is. -/
def Writers.event (w : Writers) : WriteEvent → Option Event
  | .call op => if w.queue = [] then some (.assign [op]) else none
  | .lead _ => some (.assign (opsOf w.calls w.queue))
  | .apply _ coins => some (.apply coins)
  | .engine ev => some ev
  | _ => none

theorem opsOf_congr {calls calls' : List Call} {ids : List Nat}
    (h : ∀ i ∈ ids, (calls'[i]?).map Call.op = (calls[i]?).map Call.op) :
    opsOf calls' ids = opsOf calls ids :=
  List.filterMap_congr h

theorem length_opsOf {calls : List Call} {ids : List Nat} (h : ∀ i ∈ ids, i < calls.length) :
    (opsOf calls ids).length = ids.length := by
  induction ids with
  | nil => rfl
  | cons i ids ih =>
    have hget : calls[i]? = some (calls.get ⟨i, h i List.mem_cons_self⟩) :=
      List.getElem?_eq_getElem (h i List.mem_cons_self)
    have hrest := ih fun j hj => h j (List.mem_cons_of_mem i hj)
    simp only [opsOf, List.filterMap_cons, hget, Option.map_some, List.length_cons] at hrest ⊢
    rw [hrest]

/-- Calls with consecutive numbers are a batch. -/
theorem records_eq_batch {nextSeq : UInt64} {calls : List Call} {m n : Nat}
    (hlen : m + n ≤ calls.length)
    (hseq : ∀ i c, i < m + n → calls[i]? = some c → m ≤ i → c.seq = nextSeq + UInt64.ofNat i) :
    (recordsOf calls (List.range' m n)).map Prod.snd =
      batchRecords (nextSeq + UInt64.ofNat m) (opsOf calls (List.range' m n)) := by
  induction n generalizing m with
  | zero => rfl
  | succ n ih =>
    have hm : m < calls.length := by omega
    have hget : calls[m]? = some calls[m] := List.getElem?_eq_getElem hm
    have hrest := @ih (m + 1) (by omega) fun i c hi hc hmi => hseq i c (by omega) hc (by omega)
    have hnext : nextSeq + UInt64.ofNat (m + 1) = nextSeq + UInt64.ofNat m + 1 := by
      rw [UInt64.ofNat_add, ← UInt64.add_assoc]
      rfl
    rw [hnext] at hrest
    simp only [List.range'_succ, recordsOf, opsOf, List.filterMap_cons, hget, Option.map_some,
      List.map_cons, batchRecords]
    refine congrArg₂ List.cons ?_ hrest
    rw [Call.record, hseq m _ (by omega) hget le_rfl]

namespace Staged

variable {nextSeq : UInt64} {w w' : Writers} {m l a : Nat}

/-- The election is the assignment of a batch. -/
theorem view_lead (h : Staged nextSeq w m l a) {id : Nat} (hstep : w.lead id = some w') :
    (w.view l a).step (.assign (opsOf w.calls w.queue)) =
      some (w'.view m w.calls.length) ∧ w'.applied = w.applied := by
  have hstaged := h.lead hstep
  obtain ⟨rfl, rfl, rfl, hlt⟩ := h.lead_front hstep
  obtain ⟨c, -, -, -, -, hw'⟩ := Writers.lead_inv hstep
  have hlen : w'.calls.length = w.calls.length := by
    rw [hw', length_setPc, length_assignSeqs]
  have hmem : ∀ i ∈ List.range' l (w.calls.length - l), i < w.calls.length := fun i hi => by
    have := (List.mem_range'_1.1 hi).2
    omega
  have hops : opsOf w'.calls w.queue = opsOf w.calls w.queue := by
    refine opsOf_congr fun i _ => ?_
    rw [hw', setPc_get, h.queue, assignSeqs_get, Option.map_map, Option.map_map]
    congr 1
    funext c
    simp only [Function.comp]
    split <;> split <;> rfl
  have hbatch := @records_eq_batch nextSeq w'.calls l (w.calls.length - l) (by omega)
    fun i c hi hc _ => (hstaged.calls i c hc).seq (by omega)
  rw [← h.queue, hops, ← h.nextSeq_eq] at hbatch
  have hcount : (opsOf w.calls w.queue).length = w.queue.length := by
    rw [h.queue]
    exact length_opsOf hmem
  have hne : opsOf w.calls w.queue ≠ [] := by
    rw [← List.length_pos_iff, hcount, h.queue, List.length_range']
    omega
  constructor
  · have hidle : (w.view l l).inflight = [] := by simp [Writers.view, recordsOf]
    rw [DB.step, DB.assign, if_pos ⟨hidle, hne⟩, hcount, Writers.view, Writers.view, ← h.queue, hbatch,
      hw']
  · rw [Writers.applied, Writers.applied, hw', (log_assigned _ _).2.2]

/-- The second section is the application of the batch. -/
theorem view_apply (h : Staged nextSeq w m l a) {id : Nat} {coins : List (List Bool)}
    (hstep : w.apply id coins = some w') :
    (w.view l a).step (.apply coins) = some (w'.view a a) ∧
      w'.applied = w.applied ++ (w.view l a).inflight.map Wal.Record.entry := by
  obtain ⟨c, batch, hc, hpc, hw'⟩ := Writers.apply_inv hstep
  obtain ⟨rfl, -, hlt, rfl⟩ := h.apply_batch hc hpc
  constructor
  · have hne : (w.view l a).inflight ≠ [] := by
      refine List.ne_nil_of_mem (List.mem_map_of_mem (mem_recordsOf.2 ⟨?_, c, hc, rfl⟩))
      exact List.mem_range'_1.2 ⟨le_rfl, by omega⟩
    rw [DB.step, DB.apply, if_pos hne, hw']
    simp [Writers.view, recordsOf, DB.appendApply]
  · rw [Writers.applied, Writers.applied, hw', (log_written _ _).2.2]
    simp [Writers.view, Function.comp_def]

/-- The other threads. -/
theorem view_engine {ev : Event} (hstep : w.engine ev = some w') :
    (w.view l a).step ev = some (w'.view l a) ∧ ev.ofWriters = false := by
  obtain ⟨hev, db, hdb, rfl⟩ := Writers.engine_inv hstep
  refine ⟨?_, hev⟩
  rw [Writers.view, DB.step_inflight _ _ hev, hdb]
  rfl

theorem view_enqueue (h : Staged nextSeq w m l a) (op : Op) :
    (w.enqueue op).view l a = w.view l a := by
  have h2 := h.applied_le
  have h3 := h.numbered_le
  have hrec : recordsOf (w.enqueue op).calls (List.range' l (a - l)) =
      recordsOf w.calls (List.range' l (a - l)) := recordsOf_congr fun i hi => by
    have hi := (List.mem_range'_1.1 hi).2
    rw [Writers.enqueue, List.getElem?_append_left (by omega)]
  rw [Writers.view, hrec]
  rfl

/-- The first section of a call is the assignment of a batch of one, or nothing. -/
theorem view_call (h : Staged nextSeq w m l a) (op : Op) :
    ∃ l' a', Staged nextSeq (w.call op) m l' a' ∧ (w.call op).applied = w.applied ∧
      (w.queue ≠ [] ∧ (w.call op).view l' a' = w.view l a ∨
        w.queue = [] ∧ (w.view l a).step (.assign [op]) = some ((w.call op).view l' a')) := by
  have hq := h.enqueue op
  by_cases hidle : w.queue = []
  · -- the call is at the front
    have hnew : (w.enqueue op).calls[w.calls.length]? = some { op := op } := by
      simp [Writers.enqueue]
    have hqueue : (w.enqueue op).queue = [w.calls.length] := by simp [Writers.enqueue, hidle]
    have hlead : (w.enqueue op).lead w.calls.length = some (w.call op) := by
      rw [Writers.call]
      simp [Writers.lead, hnew, hqueue]
    obtain ⟨hview, happ⟩ := hq.view_lead hlead
    have hops : opsOf (w.enqueue op).calls (w.enqueue op).queue = [op] := by
      simp [opsOf, hqueue, hnew]
    rw [hops, h.view_enqueue] at hview
    exact ⟨_, _, hq.lead hlead, happ, Or.inr ⟨hidle, hview⟩⟩
  · have hcall : w.call op = w.enqueue op := by
      rcases w.call_cases op with he | hlead
      · exact he
      · -- who leads is in front of the queue
        obtain ⟨c, -, -, -, hhead, -⟩ := Writers.lead_inv hlead
        have h3 := h.numbered_le
        obtain ⟨q, qs, hcons⟩ := List.exists_cons_of_ne_nil hidle
        have hmem : q < w.calls.length := by
          have hq : q ∈ w.queue := by rw [hcons]; exact List.mem_cons_self
          rw [h.queue] at hq
          have := List.mem_range'_1.1 hq
          omega
        rw [Writers.enqueue, hcons] at hhead
        exact absurd (Option.some.inj hhead) hmem.ne
    exact ⟨l, a, hcall ▸ hq, hcall ▸ rfl, Or.inl ⟨hidle, hcall ▸ h.view_enqueue op⟩⟩

/-- **Every step of the writers** is a step of the engine with the batch in flight, or changes
    nothing there. -/
theorem view_step (h : Staged nextSeq w m l a) {ev : WriteEvent} (hstep : w.step ev = some w') :
    ∃ m' l' a', Staged nextSeq w' m' l' a' ∧
      (w.event ev = none ∧ w'.view l' a' = w.view l a ∧ w'.applied = w.applied ∨
      ∃ e, w.event ev = some e ∧ (∀ opts coins, e ≠ .reopen opts coins) ∧
        (w.view l a).step e = some (w'.view l' a') ∧
        w'.applied = w.applied ++ (w.view l a).applied e) := by
  cases ev with
  | call op =>
    obtain rfl := Option.some.inj hstep
    obtain ⟨l', a', h', happ, ⟨hbusy, hview⟩ | ⟨hidle, hview⟩⟩ := h.view_call op
    · exact ⟨m, l', a', h', Or.inl ⟨if_neg hbusy, hview, happ⟩⟩
    · exact ⟨m, l', a', h', Or.inr ⟨_, if_pos hidle, by simp, hview, by simp [happ, DB.applied]⟩⟩
  | lead id =>
    obtain ⟨hview, happ⟩ := h.view_lead hstep
    exact ⟨_, _, _, h.lead hstep, Or.inr ⟨_, rfl, by simp, hview, by simp [happ, DB.applied]⟩⟩
  | apply id coins =>
    obtain ⟨hview, happ⟩ := h.view_apply hstep
    exact ⟨_, _, _, h.apply hstep, Or.inr ⟨_, rfl, by simp, hview, happ⟩⟩
  | finish id =>
    refine ⟨_, _, _, h.finish hstep, Or.inl ⟨rfl, ?_⟩⟩
    obtain ⟨c, batch, hc, hpc, hw'⟩ := Writers.finish_inv hstep
    have hpcok := (h.calls id c hc).pc
    rw [hpc] at hpcok
    obtain ⟨-, -, rfl, -⟩ := hpcok
    rw [hw']
    exact ⟨by simp [Writers.view, recordsOf], rfl⟩
  | wake id =>
    refine ⟨_, _, _, h.wake hstep, Or.inl ⟨rfl, ?_⟩⟩
    obtain ⟨c, hc, -, -, hw'⟩ := Writers.wake_inv hstep
    rw [hw', Writers.view, recordsOf_setPc]
    exact ⟨rfl, rfl⟩
  | engine ev =>
    obtain ⟨hview, hev⟩ := view_engine (l := l) (a := a) hstep
    have happ : w'.applied = w.applied ++ (w.view l a).applied ev := by
      obtain ⟨-, db, -, rfl⟩ := Writers.engine_inv hstep
      have hsame := congrArg (List.map fun p => p.2.entry) (log_flushed w.log (w.store.flushes ev)).2.2
      cases ev with
      | apply coins => cases hev
      | _ => exact hsame.trans (List.append_nil _).symm
    refine ⟨_, _, _, h.engine hstep, Or.inr ⟨ev, rfl, ?_, hview, happ⟩⟩
    rintro opts coins rfl
    cases hev

end Staged

/-! ## What a snapshot sees -/

/-- The value of `k` after the entries `es` in order, if it was `v` before. -/
def valueAfter (k : Bytes) (v : Option Bytes) (es : List Entry) : Option Bytes :=
  es.foldl (fun v e => if e.key = k then e.shown else v) v

theorem unique_cons {e : Entry} {rest : List Entry} (hnew : ∀ b ∈ rest, b.seq < e.seq)
    (hu : UniqueSeqs rest) : UniqueSeqs (e :: rest) := by
  intro a ha b hb hk hs
  rcases List.mem_cons.1 ha with rfl | ha' <;> rcases List.mem_cons.1 hb with rfl | hb'
  · rfl
  · exact absurd hs (ne_of_gt (hnew b hb'))
  · exact absurd hs (ne_of_lt (hnew a ha'))
  · exact hu a ha' b hb' hk hs

/-- One newer entry decides on its key. -/
theorem visible_cons {e : Entry} {rest : List Entry} (hnew : ∀ b ∈ rest, b.seq < e.seq)
    (hu : UniqueSeqs rest) (k : Bytes) : visible (e :: rest) k uint64Max =
      if e.key = k then e.shown else visible rest k uint64Max := by
  have happ := @visible_append [e] rest k uint64Max
    (fun a ha b hb => by rw [List.mem_singleton.1 ha]; exact le_of_lt (hnew b hb))
    (unique_cons hnew hu)
  rw [List.singleton_append] at happ
  rw [happ, newestEntry_single]
  by_cases hk : e.key = k
  · rw [if_pos hk, if_pos hk, if_neg (Option.some_ne_none e), visible, newestEntry_single, if_pos hk]
    rfl
  · rw [if_neg hk, if_neg hk, if_pos rfl]

/-- Entries that are newer than the rest and in order take effect one after the other. -/
theorem visible_newer {es rest : List Entry} (horder : es.Pairwise fun a b => a.seq < b.seq)
    (hnew : ∀ a ∈ es, ∀ b ∈ rest, b.seq < a.seq) (hu : UniqueSeqs rest) (k : Bytes) :
    UniqueSeqs (es ++ rest) ∧
      visible (es ++ rest) k uint64Max = valueAfter k (visible rest k uint64Max) es := by
  induction es generalizing rest with
  | nil => exact ⟨hu, rfl⟩
  | cons e es ih =>
    obtain ⟨hfirst, horder'⟩ := List.pairwise_cons.1 horder
    have hnew' : ∀ b ∈ rest, b.seq < e.seq := hnew e List.mem_cons_self
    obtain ⟨hu', hvis⟩ := @ih (e :: rest) horder' (fun a ha b hb => by
      rcases List.mem_cons.1 hb with rfl | hb
      · exact hfirst a ha
      · exact hnew a (List.mem_cons_of_mem e ha) b hb) (unique_cons hnew' hu)
    have hperm : (e :: es ++ rest).Perm (es ++ e :: rest) := List.perm_middle.symm
    have hu'' : UniqueSeqs (e :: es ++ rest) := hu'.subset fun x hx => hperm.mem_iff.1 hx
    refine ⟨hu'', ?_⟩
    rw [visible_congr hu'' (fun x => hperm.mem_iff) k, hvis, visible_cons hnew' hu]
    rfl

/-- What comes after a snapshot is not seen. -/
theorem visible_above {es rest : List Entry} {s : UInt64} (h : ∀ e ∈ es, s < e.seq) (k : Bytes) :
    visible (es ++ rest) k s = visible rest k s := by
  have hnone : es.filter (fun e => decide (e.key = k ∧ e.seq ≤ s)) = [] :=
    List.filter_eq_nil_iff.2 fun e he => by simp [not_le.2 (h e he)]
  simp only [visible, newestEntry, Newest.newest, List.filter_append, hnone, List.nil_append]

/-- A snapshot above everything sees the present. -/
theorem visible_present {es : List Entry} {s : UInt64} (h : ∀ e ∈ es, e.seq ≤ s) (k : Bytes) :
    visible es k s = visible es k uint64Max := by
  have hsame : es.filter (fun e => decide (e.key = k ∧ e.seq ≤ s)) =
      es.filter fun e => decide (e.key = k ∧ e.seq ≤ uint64Max) :=
    List.filter_congr fun e he => by simp [h e he, le_uint64Max]
  simp only [visible, newestEntry, Newest.newest, hsame]

/-- The snapshot `s` sees the values `v`, and whatever is not applied yet comes after it. -/
structure DB.Sees (db : DB) (s : UInt64) (v : Bytes → Option Bytes) : Prop where
  next : s < db.nextSeq
  inflight : ∀ r ∈ db.inflight, s < r.seq
  values : ∀ k, visible db.entries k s = v k

section Sees

variable {db db' : DB} {s : UInt64} {v : Bytes → Option Bytes}

/-- The counter goes up. -/
theorem nextSeq_le_step {ev : Event} (hwrap : db.NoWrap ev)
    (hr : ∀ opts coins, ev ≠ .reopen opts coins) (hstep : db.step ev = some db') :
    db.nextSeq ≤ db'.nextSeq := by
  have hsame := (DB.step_frame hstep).writers
  cases ev with
  | assign ops =>
    obtain ⟨-, -, rfl⟩ := DB.assign_inv hstep
    rw [UInt64.le_iff_toNat_le, toNat_add_ofNat hwrap]
    exact Nat.le_add_right _ _
  | apply coins =>
    obtain ⟨-, rfl⟩ := DB.apply_inv hstep
    exact le_rfl
  | reopen opts coins => exact absurd rfl (hr opts coins)
  | _ => exact le_of_eq (hsame rfl).1.symm

/-- With nothing in flight a snapshot sees the present. -/
theorem sees_snapshotSeq (ho : db.Ordered) (hpos : 1 ≤ db.nextSeq) (hidle : db.inflight = []) :
    db.Sees db.snapshotSeq fun k => visible db.entries k uint64Max where
  next := by
    have hone := UInt64.le_iff_toNat_le.1 hpos
    rw [UInt64.toNat_one] at hone
    show db.nextSeq - 1 < db.nextSeq
    rw [UInt64.lt_iff_toNat_lt, UInt64.toNat_sub_of_le _ _ hpos, UInt64.toNat_one]
    omega
  inflight := by simp [hidle]
  values k := visible_present (fun _ he => ho.seqs.le_snapshotSeq he) k

/-- What is applied while the snapshot is live is not seen. -/
theorem DB.Sees.applied (h : db.Sees s v) (ev : Event) : ∀ e ∈ db.applied ev, s < e.seq := by
  cases ev with
  | apply coins =>
    intro e he
    obtain ⟨r, hr, rfl⟩ := List.mem_map.1 he
    rw [Wal.Record.entry_seq]
    exact h.inflight r hr
  | _ => simp [DB.applied]

/-- **One step** while the snapshot is live, or the one that takes it. -/
theorem DB.Sees.step (h : db.Sees s v) (ho : db.Ordered) {ev : Event} (hwrap : db.NoWrap ev)
    (hfit : db.TablesFit ev) (hr : ∀ opts coins, ev ≠ .reopen opts coins) (hlive : s ∈ db.liveSnapshots ∨ ev = .getSnapshot)
    (hstep : db.step ev = some db') : db'.Sees s v := by
  have hvalues : ∀ k, visible db'.entries k s = v k := fun k => by
    rcases hlive with hlive | rfl
    · rw [ho.visible_step hfit hr hstep (Or.inl hlive), visible_above (h.applied ev), h.values]
    · exact Option.some.inj hstep ▸ h.values k
  refine ⟨lt_of_lt_of_le h.next (nextSeq_le_step hwrap hr hstep), fun r hmem => ?_, hvalues⟩
  have hsame := (DB.step_frame hstep).writers
  cases ev with
  | assign ops =>
    obtain ⟨-, -, rfl⟩ := DB.assign_inv hstep
    exact lt_of_lt_of_le h.next (UInt64.le_iff_toNat_le.2 ((batchRecords_seq hwrap).1 r hmem).1)
  | apply coins =>
    obtain ⟨-, rfl⟩ := DB.apply_inv hstep
    simp at hmem
  | reopen opts coins => exact absurd rfl (hr opts coins)
  | _ => exact h.inflight r ((hsame rfl).2 ▸ hmem)

end Sees

/-! ## Runs -/

def Pc.isAppending : Pc → Bool
  | .appending _ => true
  | _ => false

def WriteEvent.takesSnapshot : WriteEvent → Bool
  | .engine .getSnapshot => true
  | _ => false

/-- What a step needs so that reads stay right, and a snapshot above all: nobody has numbered a
    batch that is not applied. A condition on the state before the step. -/
def SnapshotOk (w : Writers) (ev : WriteEvent) : Prop :=
  (∀ e ∈ w.event ev, ExactOk w.store e) ∧
    (ev.takesSnapshot = true → ∀ c ∈ w.calls, c.pc.isAppending = false)

instance (w : Writers) (ev : WriteEvent) : Decidable (SnapshotOk w ev) :=
  inferInstanceAs (Decidable (_ ∧ _))

/-- The conditions on the other threads do not look at the batch in flight. -/
theorem exactOk_view {w : Writers} {l a : Nat} {ev : Event} (h : ExactOk w.store ev) :
    ExactOk (w.view l a) ev where
  wrap := by cases ev <;> exact h.wrap
  fits := ⟨h.fits.log, h.fits.tables⟩
  range := by cases ev <;> exact h.range
  cuts := by cases ev <;> exact h.cuts
  l0 := by cases ev <;> exact h.l0
  whole := h.whole

/-- The invariant of the writers over the store they started from. -/
structure Writers.Serves (base : DB) (w : Writers) (m l a : Nat) : Prop where
  staged : Staged base.nextSeq w m l a
  exact : (w.view l a).Exact
  pos : 1 ≤ w.store.nextSeq
  values : ∀ k, visible w.store.entries k uint64Max =
    valueAfter k (visible base.entries k uint64Max) w.applied

namespace Writers.Serves

variable {base : DB} {w w' : Writers} {m l a : Nat} {ev : WriteEvent}

theorem start (hb : base.Exact) (hidle : base.inflight = []) (hpos : 1 ≤ base.nextSeq) :
    (Writers.start base).Serves base 0 0 0 where
  staged := staged_start base
  exact := by
    have hview : (Writers.start base).view 0 0 = base := by
      show { base with inflight := [] } = base
      rw [← hidle]
    rwa [hview]
  pos := hpos
  values _ := rfl

/-- **One step** of the writers and the other threads; a live snapshot keeps what it sees. -/
theorem step (h : w.Serves base m l a) (hok : SnapshotOk w ev) (hstep : w.step ev = some w') :
    ∃ m' l' a', w'.Serves base m' l' a' ∧ ∀ s v,
      s ∈ w.store.liveSnapshots ∨ ev = .engine .getSnapshot → (w.view l a).Sees s v →
      (w'.view l' a').Sees s v := by
  obtain ⟨m', l', a', hst, ⟨-, hview, happ⟩ | ⟨e, he, hr, hview, happ⟩⟩ := h.staged.view_step hstep
  · refine ⟨m', l', a', ⟨hst, hview ▸ h.exact, ?_, fun k => ?_⟩, fun s v _ hsees => hview ▸ hsees⟩
    · exact (congrArg DB.nextSeq hview).symm ▸ h.pos
    · show visible (w'.view l' a').entries k uint64Max = _
      rw [hview, happ]
      exact h.values k
  · have hok' : ExactOk (w.view l a) e := exactOk_view (hok.1 e he)
    have ho := h.exact.ordered
    refine ⟨m', l', a', ⟨hst, h.exact.step hok' hr hview, ?_, fun k => ?_⟩, fun s v hlive hsees =>
      hsees.step ho hok'.wrap hok'.fits.tables hr (hlive.imp_right fun hev => ?_) hview⟩
    · have hle := nextSeq_le_step hok'.wrap hr hview
      exact le_trans h.pos hle
    · have hvis := ho.visible_step hok'.fits.tables hr hview (Or.inr rfl) k
      rw [(visible_newer (applied_order ho.seqs e) (fun x hx b hb => applied_newer ho.seqs hx hb)
        ho.unique k).2] at hvis
      rw [happ, valueAfter, List.foldl_append]
      exact hvis.trans (congrArg (fun v => valueAfter k v _) (h.values k))
    · rw [hev] at he
      exact (Option.some.inj he).symm

theorem run (h : w.Serves base m l a) {evs : List WriteEvent}
    (hok : Steps.Meets Writers.step SnapshotOk w evs) (hrun : w.run evs = some w') :
    ∃ m' l' a', w'.Serves base m' l' a' :=
  @Steps.run_invariant _ _ Writers.step SnapshotOk w w' evs
    (fun w => ∃ m l a, w.Serves base m l a)
    (fun _ _ _ ⟨_, _, _, h⟩ hP hs => by
      obtain ⟨m', l', a', h', -⟩ := h.step hP hs
      exact ⟨m', l', a', h'⟩) ⟨m, l, a, h⟩ hok hrun

/-- A snapshot that stays live through a run. -/
theorem run_sees (h : w.Serves base m l a) {s : UInt64} {v : Bytes → Option Bytes}
    (hsees : (w.view l a).Sees s v) {evs : List WriteEvent}
    (hok : Steps.Meets Writers.step SnapshotOk w evs)
    (hlive : Steps.Meets Writers.step (fun w _ => s ∈ w.store.liveSnapshots) w evs)
    (hrun : w.run evs = some w') :
    ∃ m' l' a', w'.Serves base m' l' a' ∧ (w'.view l' a').Sees s v :=
  @Steps.run_invariant _ _ Writers.step _ w w' evs
    (fun w => ∃ m l a, w.Serves base m l a ∧ (w.view l a).Sees s v)
    (fun _ _ _ ⟨_, _, _, h, hsees⟩ hP hs => by
      obtain ⟨m', l', a', h', hnext⟩ := h.step hP.1 hs
      exact ⟨m', l', a', h', hnext _ _ (Or.inl hP.2) hsees⟩) ⟨m, l, a, h, hsees⟩ (hok.and hlive) hrun

end Writers.Serves

/-- Nobody between the two sections: what is numbered is applied. -/
theorem Staged.applied_eq {nextSeq : UInt64} {w : Writers} {m l a : Nat}
    (h : Staged nextSeq w m l a) (hidle : ∀ c ∈ w.calls, c.pc.isAppending = false) : l = a := by
  have h1 := h.finished_le
  have h2 := h.applied_le
  have h3 := h.numbered_le
  rcases Nat.lt_or_ge m a with hlt | hge
  · have hget : w.calls[m]? = some w.calls[m] := List.getElem?_eq_getElem (by omega)
    have hpc := (h.calls m _ hget).pc
    have hnot := hidle _ (List.mem_of_getElem? hget)
    cases hc : (w.calls[m]).pc with
    | waiting =>
      rw [hc] at hpc
      have := hpc rfl
      omega
    | appending batch => simp [hc, Pc.isAppending] at hnot
    | finishing batch =>
      rw [hc] at hpc
      exact hpc.2.2.1
    | returned =>
      rw [hc] at hpc
      exact absurd hpc (lt_irrefl m)
  · omega

/-- **Snapshots are stable under concurrent writers.** Whatever calls of `put` and `del` are in
    progress, and whatever the other threads do: if every step meets `SnapshotOk`, then a read at
    a live snapshot gives the outcome of the writes that were numbered before it was taken, in
    the order of their numbers. That does not depend on when the read is made, and every write
    acknowledged before the snapshot is among them. -/
theorem snapshot_stable {db : DB} (hdb : db.Exact) (hidle : db.inflight = [])
    (hpos : 1 ≤ db.nextSeq) {evs evs' : List WriteEvent} {w₁ w₂ w₃ : Writers}
    (hrun : (Writers.start db).run evs = some w₁)
    (hsnap : w₁.step (.engine .getSnapshot) = some w₂) (hrun' : w₂.run evs' = some w₃)
    (hok : Steps.Meets Writers.step SnapshotOk (Writers.start db) evs)
    (hoks : SnapshotOk w₁ (.engine .getSnapshot))
    (hok' : Steps.Meets Writers.step SnapshotOk w₂ evs')
    (hlive : Steps.Meets Writers.step
      (fun w _ => w₁.store.snapshotSeq ∈ w.store.liveSnapshots) w₂ evs') :
    (∀ k, w₃.store.getImpl k w₁.store.snapshotSeq =
      .ok (valueAfter k (visible db.entries k uint64Max)
        ((assignedIn w₁.log).map fun p => p.2.entry))) ∧
    ∀ (i : Nat) (c : Call), w₁.calls[i]? = some c → c.pc = .returned →
      (i, c.record) ∈ assignedIn w₁.log := by
  obtain ⟨m, l, a, h₁⟩ := (Writers.Serves.start hdb hidle hpos).run hok hrun
  obtain rfl := h₁.staged.applied_eq (hoks.2 rfl)
  have happ : w₁.applied = (assignedIn w₁.log).map fun p => p.2.entry := by
    rw [Writers.applied, h₁.staged.inserted, h₁.staged.assigned]
  have hview : (w₁.view l l).inflight = [] := by simp [Writers.view, recordsOf]
  have hsees : (w₁.view l l).Sees w₁.store.snapshotSeq
      fun k => visible w₁.store.entries k uint64Max := sees_snapshotSeq h₁.exact.ordered h₁.pos hview
  obtain ⟨m₂, l₂, a₂, h₂, hkeep⟩ := h₁.step hoks hsnap
  obtain ⟨m₃, l₃, a₃, h₃, hsees₃⟩ := h₂.run_sees (hkeep _ _ (Or.inr rfl) hsees) hok' hlive hrun'
  refine ⟨fun k => ?_, fun i c hc hpc => ?_⟩
  · rw [← happ, ← h₁.values]
    exact (DB.getImpl_eq h₃.exact.ordered h₃.exact.whole.live k _).trans
      (congrArg Except.ok (hsees₃.values k))
  · -- a call that has returned is behind the leader
    have hlt := (h₁.staged.calls i c hc).pc
    rw [hpc] at hlt
    rw [h₁.staged.assigned]
    refine mem_recordsOf.2 ⟨List.mem_range.2 (lt_of_lt_of_le hlt h₁.staged.finished_le), c, hc, rfl⟩

/-- One call from its enqueueing to its return. -/
def wholeCall (id : Nat) (key value : UInt8) : List WriteEvent :=
  [.call (putByte key value), .apply id [], .finish id]

/-- A write, a snapshot, and another write of the same key, flushed while its leader is still to
    finish: the snapshot keeps the first value. -/
theorem snapshot_stable_overwrite : ∃ w₁ w₂ w₃ : Writers,
    (Writers.start (DB.create {})).run (wholeCall 0 1 1) = some w₁ ∧
    w₁.step (.engine .getSnapshot) = some w₂ ∧
    w₂.run [.call (putByte 1 2), .apply 1 [], .engine .flush] = some w₃ ∧
    w₃.store.getImpl [1] w₁.store.snapshotSeq = .ok (some [1]) := by
  have h : (((Writers.start (DB.create {})).run (wholeCall 0 1 1)).bind fun w₁ =>
      (w₁.step (.engine .getSnapshot)).bind fun w₂ =>
      (w₂.run [.call (putByte 1 2), .apply 1 [], .engine .flush]).map fun _ =>
        decide (SnapshotOk w₁ (.engine .getSnapshot) ∧
          Steps.Meets Writers.step SnapshotOk w₂
            [.call (putByte 1 2), .apply 1 [], .engine .flush] ∧
          Steps.Meets Writers.step (fun w _ => w₁.store.snapshotSeq ∈ w.store.liveSnapshots) w₂
            [.call (putByte 1 2), .apply 1 [], .engine .flush] ∧
          valueAfter [1] (visible (DB.create {}).entries [1] uint64Max)
            ((assignedIn w₁.log).map fun p => p.2.entry) = some [1])) = some true := by
    decide +kernel
  have hok : Steps.Meets Writers.step SnapshotOk (Writers.start (DB.create {}))
      (wholeCall 0 1 1) := by
    decide +kernel
  obtain ⟨w₁, h₁, h⟩ := Option.bind_eq_some_iff.1 h
  obtain ⟨w₂, h₂, h⟩ := Option.bind_eq_some_iff.1 h
  obtain ⟨w₃, h₃, h⟩ := Option.map_eq_some_iff.1 h
  obtain ⟨hoks, hok', hlive, hvalue⟩ := of_decide_eq_true h
  refine ⟨w₁, w₂, w₃, h₁, h₂, h₃, ?_⟩
  rw [(snapshot_stable (DB.Readable.create {}).toExact rfl (by decide) h₁ h₂ h₃ hok hoks hok'
    hlive).1 [1], hvalue]

/-- A snapshot between the two sections of a leader: the counter already counts the write, the
    memtable does not have it. -/
theorem snapshot_between : ∃ (w₁ w₂ : Writers) (s : UInt64),
    (Writers.start (DB.create {})).run
      [.call (putByte 1 1), .engine .getSnapshot] = some w₁ ∧
    w₁.run [.apply 0 []] = some w₂ ∧ s ∈ w₁.store.liveSnapshots ∧ s ∈ w₂.store.liveSnapshots ∧
    w₁.store.getImpl [1] s = .ok none ∧ w₂.store.getImpl [1] s = .ok (some [1]) := by
  have h : (((Writers.start (DB.create {})).run
      [.call (putByte 1 1), .engine .getSnapshot]).bind fun w₁ =>
      (w₁.run [.apply 0 []]).map fun w₂ =>
        decide (1 ∈ w₁.store.liveSnapshots ∧ 1 ∈ w₂.store.liveSnapshots ∧
          (w₁.store.getImpl [1] 1).toOption = some none ∧
          (w₂.store.getImpl [1] 1).toOption = some (some [1]))) = some true := by
    decide +kernel
  obtain ⟨w₁, h₁, h⟩ := Option.bind_eq_some_iff.1 h
  obtain ⟨w₂, h₂, h⟩ := Option.map_eq_some_iff.1 h
  obtain ⟨hlive₁, hlive₂, hget₁, hget₂⟩ := of_decide_eq_true h
  exact ⟨w₁, w₂, 1, h₁, h₂, hlive₁, hlive₂, eq_ok_of_toOption hget₁, eq_ok_of_toOption hget₂⟩

end Keystone
