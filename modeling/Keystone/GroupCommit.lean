/-
  `DB::write`: the leader/follower group commit.

  A call of `write` is a `WriteRequest` on its caller's stack and a program counter. The steps are
  the critical sections of the source: enqueue, and on an idle queue go on as leader and assign
  the sequence numbers; become leader after a wait; append to the log and apply; pop and mark
  done; a follower finds itself done. Between any two of them come steps of other calls and of
  the rest of the engine. Nothing in the model keeps two calls from leading at once; that they do
  not is proved.

  * `Staged` says what a reachable state looks like: with `m` requests finished, `l` applied and
    `a` numbered, the queue is `m, m+1, ..`, the one leader is call `m`, and request `i` has the
    number `next_seq_ + i`.
  * `OnStore` says what the log of actions means: `wal.log` and the memtable hold exactly what was
    appended and inserted since the last flush.
-/
import Keystone.Sequence

namespace Keystone

/-! ## Calls -/

/-- Where a call of `DB::write` stands. -/
inductive Pc where
  /-- In `write_cv_.wait`. -/
  | waiting
  /-- The leader of `batch`, which has its sequence numbers. -/
  | appending (batch : List Nat)
  /-- The leader of `batch`, which is logged and applied. -/
  | finishing (batch : List Nat)
  | returned
  deriving DecidableEq, Repr

/-- A `WriteRequest` and its call. -/
structure Call where
  op : Op
  seq : UInt64 := 0
  done : Bool := false
  pc : Pc := .waiting
  deriving DecidableEq

/-- The log record of a request. -/
def Call.record (c : Call) : Wal.Record := c.op.record c.seq

/-- What is done to the requests, in order; a flush empties the log and the memtable. -/
inductive Action where
  | assigned (id : Nat) (r : Wal.Record)
  | appended (id : Nat) (r : Wal.Record)
  | inserted (id : Nat) (r : Wal.Record)
  | flushed
  deriving DecidableEq

/-- The requests that were given a number. -/
def assignedIn (log : List Action) : List (Nat × Wal.Record) :=
  log.filterMap fun | .assigned id r => some (id, r) | _ => none

/-- The requests that were written to the log. -/
def appendedIn (log : List Action) : List (Nat × Wal.Record) :=
  log.filterMap fun | .appended id r => some (id, r) | _ => none

/-- The requests that were applied to the memtable. -/
def insertedIn (log : List Action) : List (Nat × Wal.Record) :=
  log.filterMap fun | .inserted id r => some (id, r) | _ => none

/-- The actions since the last flush. -/
def sinceFlush (log : List Action) : List Action := log.rtakeWhile fun a => decide (a ≠ .flushed)

/-- All calls of `write`, numbered in the order of their enqueueing, `write_queue_`, and the rest
    of the engine. `log` is what has been done so far; no step reads it. -/
structure Writers where
  store : DB
  calls : List Call := []
  queue : List Nat := []
  log : List Action := []

/-- A step of a writer, or of another thread. -/
inductive WriteEvent where
  | call (op : Op)
  | lead (id : Nat)
  | apply (id : Nat) (coins : List (List Bool))
  | finish (id : Nat)
  | wake (id : Nat)
  | engine (ev : Event)

/-- `r->seq = next_seq_++` over the batch. -/
def assignSeqs : UInt64 → List Nat → List Call → List Call
  | _, [], calls => calls
  | nextSeq, id :: batch, calls =>
    assignSeqs (nextSeq + 1) batch (calls.modify id fun c => { c with seq := nextSeq })

/-- `r->done = true` over the batch. -/
def markDone (batch : List Nat) (calls : List Call) : List Call :=
  batch.foldl (fun calls id => calls.modify id fun c => { c with done := true }) calls

def setPc (id : Nat) (pc : Pc) (calls : List Call) : List Call :=
  calls.modify id fun c => { c with pc := pc }

/-- `wal_records`, with the requests they are of. -/
def recordsOf (calls : List Call) (batch : List Nat) : List (Nat × Wal.Record) :=
  batch.filterMap fun id => (calls[id]?).map fun c => (id, c.record)

/-- `append_batch` and the loop over the batch, under `mu_`. -/
def DB.appendApply (db : DB) (records : List Wal.Record) (coins : List (List Bool)) : DB :=
  { db with
    dir := db.dir.execAll [.appendWal records]
    memtable := db.memtable.applyAll records coins }

namespace Writers

/-- The writers of a store that was just opened. -/
def start (db : DB) : Writers := { store := db }

/-- `write_queue_.push_back(&req)`. -/
def enqueue (w : Writers) (op : Op) : Writers :=
  { w with
    calls := w.calls ++ [{ op := op }]
    queue := w.queue ++ [w.calls.length] }

/-- A waiting call finds itself at the front of the queue and takes all of it as its batch. -/
def lead (w : Writers) (id : Nat) : Option Writers :=
  match w.calls[id]? with
  | some c =>
    if c.pc = .waiting ∧ c.done = false ∧ w.queue.head? = some id then
      let calls := assignSeqs w.store.nextSeq w.queue w.calls
      some { w with
        store := { w.store with nextSeq := w.store.nextSeq + UInt64.ofNat w.queue.length }
        calls := setPc id (.appending w.queue) calls
        log := w.log ++ (recordsOf calls w.queue).map fun p => .assigned p.1 p.2 }
    else none
  | none => none

/-- The section a call begins with: `push_back`, and the predicate of the wait, which is tested
    before the mutex is given up. On an idle queue the call goes on to lead. -/
def call (w : Writers) (op : Op) : Writers :=
  ((w.enqueue op).lead w.calls.length).getD (w.enqueue op)

/-- The leader writes its batch. -/
def apply (w : Writers) (id : Nat) (coins : List (List Bool)) : Option Writers :=
  match w.calls[id]? with
  | some ⟨_, _, _, .appending batch⟩ =>
    let records := recordsOf w.calls batch
    some { w with
      store := w.store.appendApply (records.map Prod.snd) coins
      calls := setPc id (.finishing batch) w.calls
      log := w.log ++ (records.map fun p => .appended p.1 p.2) ++
        records.map fun p => .inserted p.1 p.2 }
  | _ => none

/-- The leader pops as many requests as its batch has, marks the batch done and returns. -/
def finish (w : Writers) (id : Nat) : Option Writers :=
  match w.calls[id]? with
  | some ⟨_, _, _, .finishing batch⟩ =>
    some { w with
      queue := w.queue.drop batch.length
      calls := setPc id .returned (markDone batch w.calls) }
  | _ => none

/-- A follower finds itself done and returns. -/
def wake (w : Writers) (id : Nat) : Option Writers :=
  match w.calls[id]? with
  | some c =>
    if c.pc = .waiting ∧ c.done = true then
      some { w with calls := setPc id .returned w.calls }
    else none
  | none => none

/-- A step of another thread. -/
def engine (w : Writers) (ev : Event) : Option Writers :=
  if ev.ofWriters then none
  else (w.store.step ev).map fun db =>
    { w with store := db, log := w.log ++ if w.store.flushes ev then [.flushed] else [] }

def step (w : Writers) : WriteEvent → Option Writers
  | .call op => some (w.call op)
  | .lead id => w.lead id
  | .apply id coins => w.apply id coins
  | .finish id => w.finish id
  | .wake id => w.wake id
  | .engine ev => w.engine ev

def run (w : Writers) (evs : List WriteEvent) : Option Writers := Steps.run Writers.step w evs

end Writers

/-! ## What each step does -/

namespace Writers

variable {w w' : Writers} {id : Nat}

theorem call_cases (w : Writers) (op : Op) : w.call op = w.enqueue op ∨
    (w.enqueue op).lead w.calls.length = some (w.call op) := by
  unfold call
  cases (w.enqueue op).lead w.calls.length with
  | none => exact Or.inl rfl
  | some w' => exact Or.inr rfl

theorem lead_inv (h : w.lead id = some w') : ∃ c, w.calls[id]? = some c ∧ c.pc = .waiting ∧
    c.done = false ∧ w.queue.head? = some id ∧
    w' = { w with
      store := { w.store with nextSeq := w.store.nextSeq + UInt64.ofNat w.queue.length }
      calls := setPc id (.appending w.queue) (assignSeqs w.store.nextSeq w.queue w.calls)
      log := w.log ++ (recordsOf (assignSeqs w.store.nextSeq w.queue w.calls) w.queue).map fun p =>
        .assigned p.1 p.2 } := by
  unfold lead at h
  split at h
  · rename_i c hc
    split at h
    · rename_i hcond
      exact ⟨c, hc, hcond.1, hcond.2.1, hcond.2.2, (Option.some.inj h).symm⟩
    · simp at h
  · simp at h

theorem apply_inv {coins : List (List Bool)} (h : w.apply id coins = some w') :
    ∃ c batch, w.calls[id]? = some c ∧ c.pc = .appending batch ∧
    w' = { w with
      store := w.store.appendApply ((recordsOf w.calls batch).map Prod.snd) coins
      calls := setPc id (.finishing batch) w.calls
      log := w.log ++ ((recordsOf w.calls batch).map fun p => Action.appended p.1 p.2) ++
        (recordsOf w.calls batch).map fun p => Action.inserted p.1 p.2 } := by
  unfold apply at h
  split at h
  · rename_i batch hc
    exact ⟨_, batch, hc, rfl, (Option.some.inj h).symm⟩
  · simp at h

theorem finish_inv (h : w.finish id = some w') : ∃ c batch, w.calls[id]? = some c ∧
    c.pc = .finishing batch ∧
    w' = { w with
      queue := w.queue.drop batch.length
      calls := setPc id .returned (markDone batch w.calls) } := by
  unfold finish at h
  split at h
  · rename_i batch hc
    exact ⟨_, batch, hc, rfl, (Option.some.inj h).symm⟩
  · simp at h

theorem wake_inv (h : w.wake id = some w') : ∃ c, w.calls[id]? = some c ∧ c.pc = .waiting ∧
    c.done = true ∧ w' = { w with calls := setPc id .returned w.calls } := by
  unfold wake at h
  split at h
  · rename_i c hc
    split at h
    · rename_i hcond
      exact ⟨c, hc, hcond.1, hcond.2, (Option.some.inj h).symm⟩
    · simp at h
  · simp at h

theorem engine_inv {ev : Event} (h : w.engine ev = some w') :
    ev.ofWriters = false ∧ ∃ db, w.store.step ev = some db ∧ w' =
      { w with store := db, log := w.log ++ if w.store.flushes ev then [.flushed] else [] } := by
  unfold engine at h
  split at h
  · simp at h
  · rename_i hev
    obtain ⟨db, hdb, rfl⟩ := Option.map_eq_some_iff.1 h
    exact ⟨by simpa using hev, db, hdb, rfl⟩

end Writers

/-! ## Batches -/

section Batches

variable {calls calls' : List Call} {ids : List Nat}

theorem assignSeqs_get (nextSeq : UInt64) (m b : Nat) (calls : List Call) (i : Nat) :
    (assignSeqs nextSeq (List.range' m b) calls)[i]? = (calls[i]?).map fun c =>
      if m ≤ i ∧ i < m + b then { c with seq := nextSeq + UInt64.ofNat (i - m) } else c := by
  induction b generalizing nextSeq m calls with
  | zero =>
    show calls[i]? = _
    cases calls[i]? with
    | none => rfl
    | some c => exact congrArg some (if_neg (by omega)).symm
  | succ b ih =>
    rw [List.range'_succ, assignSeqs, ih, List.getElem?_modify, Option.map_eq_map, Option.map_map]
    congr 1
    funext c
    simp only [Function.comp]
    by_cases hm : m = i
    · subst hm
      simp
    · by_cases hin : m + 1 ≤ i ∧ i < m + 1 + b
      · have hsub : nextSeq + 1 + UInt64.ofNat (i - (m + 1)) = nextSeq + UInt64.ofNat (i - m) := by
          rw [show i - m = 1 + (i - (m + 1)) by omega, UInt64.ofNat_add, UInt64.add_assoc]
          rfl
        rw [if_neg hm, if_pos hin, if_pos (by omega), hsub]
      · rw [if_neg hm, if_neg hin, if_neg (by omega)]

theorem markDone_get (m b : Nat) (calls : List Call) (i : Nat) :
    (markDone (List.range' m b) calls)[i]? = (calls[i]?).map fun c =>
      if m ≤ i ∧ i < m + b then { c with done := true } else c := by
  induction b generalizing m calls with
  | zero =>
    show calls[i]? = _
    cases calls[i]? with
    | none => rfl
    | some c => exact congrArg some (if_neg (by omega)).symm
  | succ b ih =>
    have hcons : markDone (List.range' m (b + 1)) calls = markDone (List.range' (m + 1) b)
        (calls.modify m fun c => { c with done := true }) := rfl
    rw [hcons, ih, List.getElem?_modify, Option.map_eq_map, Option.map_map]
    congr 1
    funext c
    simp only [Function.comp]
    by_cases hm : m = i
    · subst hm
      simp
    · by_cases hin : m + 1 ≤ i ∧ i < m + 1 + b
      · rw [if_neg hm, if_pos hin, if_pos (by omega)]
      · rw [if_neg hm, if_neg hin, if_neg (by omega)]

theorem length_assignSeqs (nextSeq : UInt64) (batch : List Nat) (calls : List Call) :
    (assignSeqs nextSeq batch calls).length = calls.length := by
  induction batch generalizing nextSeq calls with
  | nil => rfl
  | cons id batch ih => rw [assignSeqs, ih, List.length_modify]

theorem length_markDone (batch : List Nat) (calls : List Call) :
    (markDone batch calls).length = calls.length := by
  induction batch generalizing calls with
  | nil => rfl
  | cons id batch ih => exact (ih _).trans (List.length_modify _ _ _)

theorem recordsOf_congr (h : ∀ i ∈ ids, (calls'[i]?).map Call.record = (calls[i]?).map Call.record) :
    recordsOf calls' ids = recordsOf calls ids := by
  refine List.filterMap_congr fun i hi => ?_
  have hpair : ∀ o : Option Call, (o.map fun c => (i, c.record)) =
      (o.map Call.record).map fun r => (i, r) := fun o => by
    rw [Option.map_map]
    rfl
  rw [hpair, hpair, h i hi]

theorem setPc_get (id : Nat) (pc : Pc) (calls : List Call) (i : Nat) :
    (setPc id pc calls)[i]? = (calls[i]?).map fun c => if id = i then { c with pc := pc } else c :=
  List.getElem?_modify _ _ _ _

theorem length_setPc (id : Nat) (pc : Pc) (calls : List Call) :
    (setPc id pc calls).length = calls.length := List.length_modify _ _ _

theorem recordsOf_setPc (id : Nat) (pc : Pc) :
    recordsOf (setPc id pc calls) ids = recordsOf calls ids := by
  refine recordsOf_congr fun i _ => ?_
  rw [setPc_get, Option.map_map]
  congr 1
  funext c
  simp only [Function.comp]
  split <;> rfl

theorem recordsOf_append (calls : List Call) (ids ids' : List Nat) :
    recordsOf calls (ids ++ ids') = recordsOf calls ids ++ recordsOf calls ids' :=
  List.filterMap_append

/-- The ids of the records of calls that exist. -/
theorem recordsOf_ids {n : Nat} (h : n ≤ calls.length) :
    (recordsOf calls (List.range n)).map Prod.fst = List.range n := by
  rw [recordsOf, List.map_filterMap]
  conv_rhs => rw [← List.filterMap_some (l := List.range n)]
  refine List.filterMap_congr fun i hi => ?_
  have hi : i < calls.length := lt_of_lt_of_le (List.mem_range.1 hi) h
  simp [List.getElem?_eq_getElem hi]

theorem mem_recordsOf {id : Nat} {r : Wal.Record} : (id, r) ∈ recordsOf calls ids ↔
    id ∈ ids ∧ ∃ c, calls[id]? = some c ∧ c.record = r := by
  simp only [recordsOf, List.mem_filterMap, Option.map_eq_some_iff, Prod.mk.injEq]
  constructor
  · rintro ⟨i, hi, c, hc, rfl, rfl⟩
    exact ⟨hi, c, hc, rfl⟩
  · rintro ⟨hi, c, hc, rfl⟩
    exact ⟨id, hi, c, hc, rfl, rfl⟩

end Batches

section Log

variable (log : List Action) (rs : List (Nat × Wal.Record))

theorem sinceFlush_append {acts : List Action} (h : .flushed ∉ acts) :
    sinceFlush (log ++ acts) = sinceFlush log ++ acts := by
  have hall : ∀ a ∈ acts.reverse, decide (a ≠ .flushed) = true := fun a ha =>
    decide_eq_true fun he => h (he ▸ List.mem_reverse.1 ha)
  rw [sinceFlush, sinceFlush, List.rtakeWhile, List.rtakeWhile, List.reverse_append,
    List.takeWhile_append_of_pos hall, List.reverse_append, List.reverse_reverse]

theorem sinceFlush_flushed : sinceFlush (log ++ [.flushed]) = [] := by
  simp [sinceFlush, List.rtakeWhile]

theorem log_flushed (b : Bool) :
    assignedIn (log ++ if b then [.flushed] else []) = assignedIn log ∧
    appendedIn (log ++ if b then [.flushed] else []) = appendedIn log ∧
    insertedIn (log ++ if b then [.flushed] else []) = insertedIn log := by
  cases b <;> simp [assignedIn, appendedIn, insertedIn, List.filterMap_append]

theorem log_assigned :
    assignedIn (log ++ rs.map fun p => Action.assigned p.1 p.2) = assignedIn log ++ rs ∧
    appendedIn (log ++ rs.map fun p => Action.assigned p.1 p.2) = appendedIn log ∧
    insertedIn (log ++ rs.map fun p => Action.assigned p.1 p.2) = insertedIn log := by
  simp [assignedIn, appendedIn, insertedIn, List.filterMap_append, List.filterMap_map]

theorem log_written : assignedIn (log ++ (rs.map fun p => Action.appended p.1 p.2) ++
      rs.map fun p => Action.inserted p.1 p.2) = assignedIn log ∧
    appendedIn (log ++ (rs.map fun p => Action.appended p.1 p.2) ++
      rs.map fun p => Action.inserted p.1 p.2) = appendedIn log ++ rs ∧
    insertedIn (log ++ (rs.map fun p => Action.appended p.1 p.2) ++
      rs.map fun p => Action.inserted p.1 p.2) = insertedIn log ++ rs := by
  simp [assignedIn, appendedIn, insertedIn, List.filterMap_append, List.filterMap_map]

end Log

/-! ## The invariant -/

/-- A program counter that fits: call `m` leads, if any. -/
def PcOk (m l a i : Nat) : Pc → Prop
  | .waiting => i = m → a = m
  | .appending batch => i = m ∧ m < a ∧ l = m ∧ batch = List.range' m (a - m)
  | .finishing batch => i = m ∧ m < a ∧ l = a ∧ batch = List.range' m (a - m)
  | .returned => i < m

/-- The other calls do not care how far the leader is. -/
theorem PcOk.other {m l a l' a' i : Nat} {pc : Pc} (h : PcOk m l a i pc) (hi : i ≠ m) :
    PcOk m l' a' i pc := by
  cases pc with
  | waiting => exact fun he => absurd he hi
  | appending batch => exact absurd h.1 hi
  | finishing batch => exact absurd h.1 hi
  | returned => exact h

theorem PcOk.finish {m l a i : Nat} {pc : Pc} (h : PcOk m l a i pc) (hi : i ≠ m) (hm : m ≤ a) :
    PcOk a a a i pc := by
  cases pc with
  | waiting => exact fun _ => rfl
  | appending batch => exact absurd h.1 hi
  | finishing batch => exact absurd h.1 hi
  | returned => exact lt_of_lt_of_le h hm

structure CallOk (nextSeq : UInt64) (m l a i : Nat) (c : Call) : Prop where
  done : c.done = true ↔ i < m
  seq : i < a → c.seq = nextSeq + UInt64.ofNat i
  pc : PcOk m l a i c.pc

/-- The writers stand at `m` requests finished, `l` applied and `a` numbered, from `nextSeq`
    on. -/
structure Staged (nextSeq : UInt64) (w : Writers) (m l a : Nat) : Prop where
  finished_le : m ≤ l
  applied_le : l ≤ a
  numbered_le : a ≤ w.calls.length
  queue : w.queue = List.range' m (w.calls.length - m)
  calls : ∀ i c, w.calls[i]? = some c → CallOk nextSeq m l a i c
  nextSeq_eq : w.store.nextSeq = nextSeq + UInt64.ofNat a
  assigned : assignedIn w.log = recordsOf w.calls (List.range a)
  appended : appendedIn w.log = recordsOf w.calls (List.range l)
  inserted : insertedIn w.log = recordsOf w.calls (List.range l)

theorem staged_start (db : DB) : Staged db.nextSeq (.start db) 0 0 0 where
  finished_le := le_rfl
  applied_le := le_rfl
  numbered_le := Nat.zero_le _
  queue := rfl
  calls := by simp [Writers.start]
  nextSeq_eq := (UInt64.add_zero _).symm
  assigned := rfl
  appended := rfl
  inserted := rfl

theorem range_split {m a : Nat} (h : m ≤ a) :
    List.range a = List.range m ++ List.range' m (a - m) := by
  have h1 := @List.range'_append_1 0 m (a - m)
  rw [Nat.zero_add, Nat.add_sub_of_le h] at h1
  rw [List.range_eq_range', List.range_eq_range', h1]

namespace Staged

variable {nextSeq : UInt64} {w w' : Writers} {m l a : Nat}

theorem enqueue (h : Staged nextSeq w m l a) (op : Op) :
    Staged nextSeq (w.enqueue op) m l a := by
  have hlen : (w.enqueue op).calls.length = w.calls.length + 1 := by simp [Writers.enqueue]
  have hold : ∀ i, i < w.calls.length → (w.enqueue op).calls[i]? = w.calls[i]? :=
    fun i hi => List.getElem?_append_left hi
  have hrec : ∀ n, n ≤ w.calls.length →
      recordsOf (w.enqueue op).calls (List.range n) = recordsOf w.calls (List.range n) :=
    fun n hn => recordsOf_congr fun i hi => by
      rw [hold i (lt_of_lt_of_le (List.mem_range.1 hi) hn)]
  have h1 := h.finished_le
  have h2 := h.applied_le
  have h3 := h.numbered_le
  refine ⟨h1, h2, by omega, ?_, fun i c hc => ?_, h.nextSeq_eq, ?_, ?_, ?_⟩
  · rw [hlen, show w.calls.length + 1 - m = w.calls.length - m + 1 by omega,
      List.range'_1_concat, ← h.queue, show m + (w.calls.length - m) = w.calls.length by omega]
    rfl
  · by_cases hi : i < w.calls.length
    · rw [hold i hi] at hc
      exact h.calls i c hc
    · -- the new call waits behind all others
      have hi' : i = w.calls.length := by
        have := (List.getElem?_eq_some_iff.1 hc).1
        omega
      subst hi'
      have hnew : (w.enqueue op).calls[w.calls.length]? = some { op := op } := by
        simp [Writers.enqueue]
      obtain rfl := Option.some.inj (hnew.symm.trans hc)
      refine ⟨⟨fun hd => by simp at hd, fun hlt => by omega⟩, fun hlt => by omega, ?_⟩
      show w.calls.length = m → a = m
      omega
  · rw [hrec a h3]
    exact h.assigned
  · rw [hrec l (le_trans h2 h3)]
    exact h.appended
  · rw [hrec l (le_trans h2 h3)]
    exact h.inserted

/-- Who can lead is call `m`, and nobody leads. -/
theorem lead_front (h : Staged nextSeq w m l a) {id : Nat} (hstep : w.lead id = some w') :
    l = id ∧ l = m ∧ l = a ∧ l < w.calls.length := by
  obtain ⟨c, hc, hpc, -, hhead, -⟩ := Writers.lead_inv hstep
  have h1 := h.finished_le
  have h2 := h.applied_le
  obtain ⟨rfl, hlt⟩ : m = id ∧ m < w.calls.length := by
    rw [h.queue, List.head?_range'] at hhead
    split at hhead
    · simp at hhead
    · exact ⟨Option.some.inj hhead, by omega⟩
  obtain rfl : a = m := by
    have hpcok := (h.calls m c hc).pc
    rw [hpc] at hpcok
    exact hpcok rfl
  omega

/-- The batch of a leader that has not applied it. -/
theorem apply_batch (h : Staged nextSeq w m l a) {id : Nat} {c : Call} {batch : List Nat}
    (hc : w.calls[id]? = some c) (hpc : c.pc = .appending batch) :
    l = id ∧ l = m ∧ l < a ∧ batch = List.range' l (a - l) := by
  have hpcok := (h.calls id c hc).pc
  rw [hpc] at hpcok
  obtain ⟨rfl, hlt, rfl, hbatch⟩ := hpcok
  exact ⟨rfl, rfl, hlt, hbatch⟩

/-- The call at the front becomes the leader of the whole queue. -/
theorem lead (h : Staged nextSeq w m l a) {id : Nat} (hstep : w.lead id = some w') :
    Staged nextSeq w' m m w.calls.length := by
  obtain ⟨rfl, rfl, rfl, hlt⟩ := h.lead_front hstep
  obtain ⟨c, hc, hpc, -, hhead, hw'⟩ := Writers.lead_inv hstep
  have h3 := h.numbered_le
  have hget : ∀ i, (assignSeqs w.store.nextSeq w.queue w.calls)[i]? = (w.calls[i]?).map fun c =>
      if l ≤ i ∧ i < w.calls.length then { c with seq := nextSeq + UInt64.ofNat i } else c := by
    intro i
    rw [h.queue, assignSeqs_get, h.nextSeq_eq, Nat.add_sub_of_le h3]
    congr 1
    funext c
    split
    · rw [UInt64.add_assoc, ← UInt64.ofNat_add, Nat.add_sub_of_le (by omega)]
    · rfl
  have hrec : recordsOf w'.calls (List.range l) = recordsOf w.calls (List.range l) := by
    rw [hw', recordsOf_setPc]
    refine recordsOf_congr fun i hi => ?_
    have hi := List.mem_range.1 hi
    rw [hget, Option.map_map]
    congr 1
    funext c
    simp only [Function.comp]
    rw [if_neg (by omega)]
  have hlen : w'.calls.length = w.calls.length := by
    rw [hw', length_setPc, length_assignSeqs]
  have hqueue : w'.queue = List.range' l (w.calls.length - l) := by
    rw [hw']
    exact h.queue
  obtain ⟨hlog1, hlog2, hlog3⟩ :=
    log_assigned w.log (recordsOf (assignSeqs w.store.nextSeq w.queue w.calls) w.queue)
  refine ⟨le_rfl, h3, hlen.ge, by rw [hlen, hqueue], fun i c' hc' => ?_, ?_, ?_, ?_, ?_⟩
  · rw [hw', setPc_get, hget, Option.map_map] at hc'
    obtain ⟨c₀, hc₀, rfl⟩ := Option.map_eq_some_iff.1 hc'
    have hi := (List.getElem?_eq_some_iff.1 hc₀).1
    have hok := h.calls i c₀ hc₀
    simp only [Function.comp]
    by_cases hil : l = i
    · subst hil
      simp only [le_refl, hlt, and_self, if_true]
      exact ⟨hok.done, fun _ => rfl, rfl, hlt, rfl, h.queue⟩
    · rw [if_neg hil]
      by_cases hli : l ≤ i
      · rw [if_pos ⟨hli, hi⟩]
        exact ⟨hok.done, fun _ => rfl, hok.pc.other (Ne.symm hil)⟩
      · rw [if_neg fun h => hli h.1]
        exact ⟨hok.done, fun _ => hok.seq (by omega), hok.pc.other (Ne.symm hil)⟩
  · rw [hw']
    show w.store.nextSeq + UInt64.ofNat w.queue.length = _
    rw [h.queue, h.nextSeq_eq, List.length_range', UInt64.add_assoc, ← UInt64.ofNat_add,
      Nat.add_sub_of_le h3]
  · rw [range_split h3, recordsOf_append, hrec, hw', hlog1, h.assigned, recordsOf_setPc, h.queue]
  · rw [hrec, ← h.appended, hw', hlog2]
  · rw [hrec, ← h.inserted, hw', hlog3]

/-- A new call waits behind the others, or leads at once. -/
theorem call (h : Staged nextSeq w m l a) (op : Op) :
    ∃ l' a', Staged nextSeq (w.call op) m l' a' ∧ a ≤ a' := by
  rcases w.call_cases op with he | hlead
  · exact ⟨l, a, he ▸ h.enqueue op, le_rfl⟩
  · exact ⟨_, _, (h.enqueue op).lead hlead, (h.enqueue op).numbered_le⟩

/-- A step that numbers no request: the calls keep their records and the counter stays. -/
theorem keep (h : Staged nextSeq w m l a) {m' l' : Nat} (hm : m' ≤ l') (hl : l' ≤ a)
    (hlen : w'.calls.length = w.calls.length)
    (hrec : ∀ ids, recordsOf w'.calls ids = recordsOf w.calls ids)
    (hseq : w'.store.nextSeq = w.store.nextSeq)
    (hqueue : w'.queue = List.range' m' (w.calls.length - m'))
    (hcalls : ∀ i c, w'.calls[i]? = some c → CallOk nextSeq m' l' a i c)
    (hassigned : assignedIn w'.log = assignedIn w.log)
    (happended : appendedIn w'.log = recordsOf w.calls (List.range l'))
    (hinserted : insertedIn w'.log = recordsOf w.calls (List.range l')) :
    Staged nextSeq w' m' l' a where
  finished_le := hm
  applied_le := hl
  numbered_le := hlen ▸ h.numbered_le
  queue := by rw [hlen, hqueue]
  calls := hcalls
  nextSeq_eq := hseq.trans h.nextSeq_eq
  assigned := by rw [hassigned, hrec, h.assigned]
  appended := by rw [happended, hrec]
  inserted := by rw [hinserted, hrec]

/-- The leader writes its batch. -/
theorem apply (h : Staged nextSeq w m l a) {id : Nat} {coins : List (List Bool)}
    (hstep : w.apply id coins = some w') : Staged nextSeq w' m a a := by
  obtain ⟨c, batch, hc, hpc, rfl⟩ := Writers.apply_inv hstep
  obtain ⟨rfl, rfl, hlt, rfl⟩ := h.apply_batch hc hpc
  obtain ⟨hlog1, hlog2, hlog3⟩ := log_written w.log (recordsOf w.calls (List.range' l (a - l)))
  refine h.keep (le_of_lt hlt) le_rfl (length_setPc ..) (fun _ => recordsOf_setPc ..) rfl h.queue
    (fun i c' hc' => ?_) hlog1 ?_ ?_
  · rw [setPc_get] at hc'
    obtain ⟨c₀, hc₀, rfl⟩ := Option.map_eq_some_iff.1 hc'
    have hok := h.calls i c₀ hc₀
    by_cases hil : l = i
    · subst hil
      rw [if_pos rfl]
      exact ⟨hok.done, hok.seq, rfl, hlt, rfl, rfl⟩
    · rw [if_neg hil]
      exact ⟨hok.done, hok.seq, hok.pc.other (Ne.symm hil)⟩
  · rw [range_split (le_of_lt hlt), recordsOf_append, ← h.appended, hlog2]
  · rw [range_split (le_of_lt hlt), recordsOf_append, ← h.inserted, hlog3]

/-- The leader pops its batch and marks it done. -/
theorem finish (h : Staged nextSeq w m l a) {id : Nat} (hstep : w.finish id = some w') :
    Staged nextSeq w' a a a := by
  obtain ⟨c, batch, hc, hpc, rfl⟩ := Writers.finish_inv hstep
  have hpcok := (h.calls id c hc).pc
  rw [hpc] at hpcok
  obtain ⟨rfl, hlt, rfl, rfl⟩ := hpcok
  have hma : id + (l - id) = l := by omega
  refine h.keep le_rfl le_rfl (by rw [length_setPc, length_markDone]) (fun ids => ?_) rfl ?_
    (fun i c' hc' => ?_) rfl h.appended h.inserted
  · rw [recordsOf_setPc]
    refine recordsOf_congr fun i _ => ?_
    rw [markDone_get, Option.map_map]
    congr 1
    funext c
    simp only [Function.comp]
    split <;> rfl
  · have h3 := h.numbered_le
    show w.queue.drop (List.range' id (l - id)).length = _
    rw [h.queue, List.length_range', List.drop_range', Nat.mul_one, hma,
      show w.calls.length - id - (l - id) = w.calls.length - l by omega]
  · rw [setPc_get, markDone_get, Option.map_map, hma] at hc'
    obtain ⟨c₀, hc₀, rfl⟩ := Option.map_eq_some_iff.1 hc'
    have hok := h.calls i c₀ hc₀
    simp only [Function.comp]
    by_cases hid : id = i
    · subst hid
      simp only [le_refl, hlt, and_self, if_true]
      exact ⟨iff_of_true rfl hlt, hok.seq, hlt⟩
    · rw [if_neg hid]
      by_cases hin : id ≤ i ∧ i < l
      · rw [if_pos hin]
        exact ⟨iff_of_true rfl hin.2, hok.seq, hok.pc.finish (Ne.symm hid) (le_of_lt hlt)⟩
      · rw [if_neg hin]
        refine ⟨hok.done.trans ⟨fun hlt' => by omega, fun hlt' => by omega⟩, hok.seq,
          hok.pc.finish (Ne.symm hid) (le_of_lt hlt)⟩

/-- A finished follower returns. -/
theorem wake (h : Staged nextSeq w m l a) {id : Nat} (hstep : w.wake id = some w') :
    Staged nextSeq w' m l a := by
  obtain ⟨c, hc, -, hdone, rfl⟩ := Writers.wake_inv hstep
  have hid := (h.calls id c hc).done.1 hdone
  refine h.keep h.finished_le h.applied_le (length_setPc ..) (fun _ => recordsOf_setPc ..) rfl
    h.queue (fun i c' hc' => ?_) rfl h.appended h.inserted
  rw [setPc_get] at hc'
  obtain ⟨c₀, hc₀, rfl⟩ := Option.map_eq_some_iff.1 hc'
  have hok := h.calls i c₀ hc₀
  by_cases hi : id = i
  · subst hi
    rw [if_pos rfl]
    exact ⟨hok.done, hok.seq, hid⟩
  · rw [if_neg hi]
    exact hok

theorem engine (h : Staged nextSeq w m l a) {ev : Event} (hstep : w.engine ev = some w') :
    Staged nextSeq w' m l a := by
  obtain ⟨hev, db, hdb, rfl⟩ := Writers.engine_inv hstep
  obtain ⟨hlog1, hlog2, hlog3⟩ := log_flushed w.log (w.store.flushes ev)
  exact ⟨h.finished_le, h.applied_le, h.numbered_le, h.queue, h.calls,
    ((DB.step_frame hdb).writers hev).1.trans h.nextSeq_eq, hlog1.trans h.assigned,
    hlog2.trans h.appended, hlog3.trans h.inserted⟩

/-- **Every step** leads from stage to stage. -/
theorem step (h : Staged nextSeq w m l a) {ev : WriteEvent} (hstep : w.step ev = some w') :
    ∃ m' l' a', Staged nextSeq w' m' l' a' ∧ m ≤ m' := by
  cases ev with
  | call op =>
    obtain ⟨l', a', h', -⟩ := h.call op
    exact ⟨m, l', a', Option.some.inj hstep ▸ h', le_rfl⟩
  | lead id => exact ⟨_, _, _, h.lead hstep, le_rfl⟩
  | apply id coins => exact ⟨_, _, _, h.apply hstep, le_rfl⟩
  | finish id => exact ⟨_, _, _, h.finish hstep, le_trans h.finished_le h.applied_le⟩
  | wake id => exact ⟨_, _, _, h.wake hstep, le_rfl⟩
  | engine ev => exact ⟨_, _, _, h.engine hstep, le_rfl⟩

end Staged

/-! ## The protocol -/

/-- A call between its election and its return as leader. -/
def Writers.Leads (w : Writers) (i : Nat) (batch : List Nat) : Prop :=
  ∃ c, w.calls[i]? = some c ∧ (c.pc = .appending batch ∨ c.pc = .finishing batch)

/-- One of the things done to each request: at most once, in increasing seq order, with the
    request's own record, and done for every request that is marked done. -/
structure Writers.Kept (w : Writers) (entries : List (Nat × Wal.Record)) : Prop where
  once : (entries.map Prod.fst).Nodup
  order : entries.Pairwise fun p q => p.2.seq < q.2.seq
  own : ∀ p ∈ entries, ∃ c, w.calls[p.1]? = some c ∧ c.record = p.2
  done : ∀ i c, w.calls[i]? = some c → c.done = true → (i, c.record) ∈ entries

/-- What the protocol guarantees in every state. -/
structure Writers.Orderly (w : Writers) : Prop where
  oneLeader : ∀ i j b b', w.Leads i b → w.Leads j b' → i = j
  front : ∀ i b, w.Leads i b → w.queue.take b.length = b
  assigned : w.Kept (assignedIn w.log)
  appended : w.Kept (appendedIn w.log)
  inserted : w.Kept (insertedIn w.log)
  acknowledged : ∀ (i : Nat) (c : Call), w.calls[i]? = some c → c.pc = .returned → c.done = true

namespace Staged

variable {nextSeq : UInt64} {w w' : Writers} {m l a : Nat}

/-- The leader is call `m`, of the batch from `m` to `a`. -/
theorem leads (h : Staged nextSeq w m l a) {i : Nat} {batch : List Nat} (hi : w.Leads i batch) :
    i = m ∧ batch = List.range' m (a - m) := by
  obtain ⟨c, hc, hpc⟩ := hi
  have hok := (h.calls i c hc).pc
  rcases hpc with hpc | hpc <;> rw [hpc] at hok <;> exact ⟨hok.1, hok.2.2.2⟩

theorem kept (h : Staged nextSeq w m l a) (hwrap : nextSeq.toNat + w.calls.length < 2 ^ 64) {k : Nat}
    (hmk : m ≤ k) (hka : k ≤ a) : w.Kept (recordsOf w.calls (List.range k)) where
  once := by
    rw [recordsOf_ids (le_trans hka h.numbered_le)]
    exact List.nodup_range
  order := by
    rw [recordsOf, List.pairwise_filterMap]
    refine List.pairwise_lt_range.imp_of_mem fun {i j} hi hj hij p hp q hq => ?_
    obtain ⟨c, hc, rfl⟩ := Option.map_eq_some_iff.1 hp
    obtain ⟨d, hd, rfl⟩ := Option.map_eq_some_iff.1 hq
    have hi := List.mem_range.1 hi
    have hj := List.mem_range.1 hj
    have hlen := h.numbered_le
    show c.seq < d.seq
    rw [(h.calls i c hc).seq (by omega), (h.calls j d hd).seq (by omega), UInt64.lt_iff_toNat_lt,
      toNat_add_ofNat (by omega), toNat_add_ofNat (by omega)]
    omega
  own := by
    rintro ⟨i, r⟩ hp
    exact (mem_recordsOf.1 hp).2
  done := by
    intro i c hc hdone
    have hi := (h.calls i c hc).done.1 hdone
    exact mem_recordsOf.2 ⟨List.mem_range.2 (by omega), c, hc, rfl⟩

theorem orderly (h : Staged nextSeq w m l a) (hwrap : nextSeq.toNat + w.calls.length < 2 ^ 64) :
    w.Orderly where
  oneLeader := fun i j b b' hi hj => (h.leads hi).1.trans (h.leads hj).1.symm
  front := by
    intro i b hi
    have h1 := h.finished_le
    have h2 := h.applied_le
    have h3 := h.numbered_le
    obtain ⟨-, rfl⟩ := h.leads hi
    have hsplit := @List.range'_append_1 m (a - m) (w.calls.length - a)
    rw [show a - m + (w.calls.length - a) = w.calls.length - m by omega] at hsplit
    rw [h.queue, ← hsplit, List.take_left]
  assigned := h.assigned ▸ h.kept hwrap (le_trans h.finished_le h.applied_le) le_rfl
  appended := h.appended ▸ h.kept hwrap h.finished_le h.applied_le
  inserted := h.inserted ▸ h.kept hwrap h.finished_le h.applied_le
  acknowledged := by
    intro i c hc hpc
    have hok := h.calls i c hc
    refine hok.done.2 ?_
    have hpcok := hok.pc
    rw [hpc] at hpcok
    exact hpcok

theorem run (h : Staged nextSeq w m l a) {evs : List WriteEvent} (hrun : w.run evs = some w') :
    ∃ m' l' a', Staged nextSeq w' m' l' a' := by
  have hstep : ∀ (s : Writers) (ev : WriteEvent) (s' : Writers), (∃ m l a, Staged nextSeq s m l a) →
      True → s.step ev = some s' → ∃ m' l' a', Staged nextSeq s' m' l' a' := by
    rintro s ev s' ⟨m, l, a, hs⟩ - hstep
    obtain ⟨m', l', a', hs', -⟩ := hs.step hstep
    exact ⟨m', l', a', hs'⟩
  exact @Steps.run_invariant _ _ Writers.step (fun _ _ => True) w w' evs
    (fun s => ∃ m l a, Staged nextSeq s m l a) hstep ⟨m, l, a, h⟩
    (Steps.Meets.of_forall fun _ _ => trivial) hrun

end Staged

/-! ## The log and the memtable -/

/-- `wal.log` and the memtable hold what was appended and inserted since the last flush, each
    record once, behind what they held at the start if there was no flush yet. -/
structure Writers.OnStore (db : DB) (w : Writers) : Prop where
  wal : w.store.dir.wal.getD [] =
    Wal.appendBatch (if .flushed ∈ w.log then [] else db.dir.wal.getD [])
      ((appendedIn (sinceFlush w.log)).map Prod.snd)
  memtable : w.store.memtable.entries.Perm
    ((insertedIn (sinceFlush w.log)).map (fun p => p.2.entry) ++
      if .flushed ∈ w.log then [] else db.memtable.entries)

namespace Writers.OnStore

variable {db : DB} {w w' : Writers}

theorem start (db : DB) : (Writers.start db).OnStore db where
  wal := by simp [Writers.start, sinceFlush, appendedIn, Wal.appendBatch]
  memtable := by simp [Writers.start, sinceFlush, insertedIn]

/-- A step that is no flush brings to the store what it adds to the list. -/
theorem append (h : w.OnStore db) {acts : List Action} (hno : .flushed ∉ acts)
    (hlog : w'.log = w.log ++ acts)
    (hwal : w'.store.dir.wal.getD [] =
      Wal.appendBatch (w.store.dir.wal.getD []) ((appendedIn acts).map Prod.snd))
    (hmem : w'.store.memtable.entries.Perm
      ((insertedIn acts).map (fun p => p.2.entry) ++ w.store.memtable.entries)) :
    w'.OnStore db := by
  have hflushed : .flushed ∈ w'.log ↔ .flushed ∈ w.log := by
    rw [hlog, List.mem_append, or_iff_left hno]
  have hsince : sinceFlush w'.log = sinceFlush w.log ++ acts := by
    rw [hlog, sinceFlush_append _ hno]
  constructor
  · simp only [hwal, h.wal, hsince, hflushed, Wal.appendBatch, appendedIn, List.filterMap_append,
      List.map_append, List.flatMap_append, List.append_assoc]
  · have hperm := hmem.trans (h.memtable.append_left _)
    simp only [hsince, hflushed, insertedIn, List.filterMap_append, List.map_append,
      List.append_assoc] at hperm ⊢
    refine hperm.trans ?_
    rw [← List.append_assoc, ← List.append_assoc]
    exact List.perm_append_comm.append_right _

/-- A step that leaves the log and the memtable alone. -/
theorem quiet (h : w.OnStore db) {acts : List Action}
    (hacts : ∀ a ∈ acts, ∃ id r, a = .assigned id r) (hlog : w'.log = w.log ++ acts)
    (hwal : w'.store.dir.wal = w.store.dir.wal)
    (hmem : w'.store.memtable = w.store.memtable) : w'.OnStore db := by
  have hno : .flushed ∉ acts := fun hf => by
    obtain ⟨id, r, he⟩ := hacts _ hf
    cases he
  have happ : appendedIn acts = [] := List.filterMap_eq_nil_iff.2 fun a ha => by
    obtain ⟨id, r, rfl⟩ := hacts a ha
    rfl
  have hins : insertedIn acts = [] := List.filterMap_eq_nil_iff.2 fun a ha => by
    obtain ⟨id, r, rfl⟩ := hacts a ha
    rfl
  refine h.append hno hlog ?_ ?_
  · rw [hwal, happ]
    simp [Wal.appendBatch]
  · rw [hmem, hins]
    simp

theorem lead (h : w.OnStore db) {id : Nat} (hstep : w.lead id = some w') : w'.OnStore db := by
  obtain ⟨c, -, -, -, -, rfl⟩ := Writers.lead_inv hstep
  refine h.quiet (fun a ha => ?_) rfl rfl rfl
  obtain ⟨p, -, rfl⟩ := List.mem_map.1 ha
  exact ⟨p.1, p.2, rfl⟩

theorem enqueue (h : w.OnStore db) (op : Op) : (w.enqueue op).OnStore db := by
  have hlog : (w.enqueue op).log = w.log ++ [] := (List.append_nil _).symm
  exact h.quiet (by simp) hlog rfl rfl

/-- The second section appends the batch and inserts it. -/
theorem apply (h : w.OnStore db) {id : Nat} {coins : List (List Bool)}
    (hstep : w.apply id coins = some w') : w'.OnStore db := by
  obtain ⟨c, batch, -, -, rfl⟩ := Writers.apply_inv hstep
  obtain ⟨-, happ, hins⟩ := log_written [] (recordsOf w.calls batch)
  rw [List.nil_append] at happ hins
  refine h.append (by simp) (List.append_assoc ..) ?_ ?_
  · rw [happ]
    rfl
  · rw [hins]
    have hperm := w.store.memtable.entries_applyAll ((recordsOf w.calls batch).map Prod.snd) coins
    rw [List.map_map] at hperm
    exact hperm

theorem engine (h : w.OnStore db) {ev : Event} (hstep : w.engine ev = some w') :
    w'.OnStore db := by
  obtain ⟨hev, db', hdb, rfl⟩ := Writers.engine_inv hstep
  rcases DB.step_flushes hev hdb with ⟨hf, hwal, hmem⟩ | ⟨hf, hwal, hmem⟩
  · constructor
    · simp [hf, hwal, sinceFlush_flushed, appendedIn, Wal.appendBatch]
    · simp [hf, hmem, sinceFlush_flushed, insertedIn]
  · have hlog : w.log ++ (if w.store.flushes ev then [.flushed] else []) = w.log ++ [] := by
      simp [hf]
    exact h.quiet (by simp) hlog hwal hmem

/-- **Every step** of the writers keeps the list in step with the store. -/
theorem step (h : w.OnStore db) {ev : WriteEvent} (hstep : w.step ev = some w') :
    w'.OnStore db := by
  cases ev with
  | call op =>
    obtain rfl := Option.some.inj hstep
    rcases w.call_cases op with he | hlead
    · exact he ▸ h.enqueue op
    · exact (h.enqueue op).lead hlead
  | lead id => exact h.lead hstep
  | apply id coins => exact h.apply hstep
  | finish id =>
    obtain ⟨c, batch, -, -, rfl⟩ := Writers.finish_inv hstep
    exact ⟨h.wal, h.memtable⟩
  | wake id =>
    obtain ⟨c, -, -, -, rfl⟩ := Writers.wake_inv hstep
    exact ⟨h.wal, h.memtable⟩
  | engine ev => exact h.engine hstep

theorem run (h : w.OnStore db) {evs : List WriteEvent} (hrun : w.run evs = some w') :
    w'.OnStore db :=
  @Steps.run_invariant _ _ Writers.step (fun _ _ => True) w w' evs (fun w => w.OnStore db)
    (fun _ _ _ h _ hstep => h.step hstep) h (Steps.Meets.of_forall fun _ _ => trivial) hrun

end Writers.OnStore

/-- **The group commit protocol.** In every state of every run, however many calls there are and
    in whatever order they take their steps: one leader at most, with its batch at the front of
    the queue; every request numbered, logged and applied once, in increasing seq order, before
    it is marked done; `wal.log` and the memtable hold exactly what was logged and applied since
    the last flush. A call that returned before another was made has the smaller number. -/
theorem group_commit {db : DB} {evs₁ evs₂ : List WriteEvent} {w₁ w₂ : Writers}
    (hrun₁ : (Writers.start db).run evs₁ = some w₁) (hrun₂ : w₁.run evs₂ = some w₂)
    (hwrap : db.nextSeq.toNat + w₂.calls.length < 2 ^ 64) :
    w₂.Orderly ∧ w₂.OnStore db ∧ ∀ (i j : Nat) (c d : Call), w₁.calls[i]? = some c →
      c.pc = .returned → w₁.calls.length ≤ j → w₂.calls[j]? = some d →
      (j, d.record) ∈ assignedIn w₂.log → c.seq < d.seq := by
  obtain ⟨m₁, l₁, a₁, h₁⟩ := (staged_start db).run hrun₁
  obtain ⟨m₂, l₂, a₂, h₂⟩ := h₁.run hrun₂
  refine ⟨h₂.orderly hwrap, ((Writers.OnStore.start db).run hrun₁).run hrun₂,
    fun i j c d hc hpc hj hd hmem => ?_⟩
  have hok := h₁.calls i c hc
  have hm := hok.pc
  rw [hpc] at hm
  have hi := (List.getElem?_eq_some_iff.1 hc).1
  have hj' := (List.getElem?_eq_some_iff.1 hd).1
  have hle := le_trans h₁.finished_le h₁.applied_le
  rw [h₂.assigned] at hmem
  have hja := List.mem_range.1 (mem_recordsOf.1 hmem).1
  rw [hok.seq (lt_of_lt_of_le hm hle), (h₂.calls j d hd).seq hja, UInt64.lt_iff_toNat_lt,
    toNat_add_ofNat (by omega), toNat_add_ofNat (by omega)]
  omega

/-- The first call leads alone. The two that come meanwhile are the next batch. -/
def pairLeads : List WriteEvent :=
  [.call (putByte 1 1), .call (putByte 2 1), .call (putByte 3 1), .apply 0 [], .finish 0, .lead 1]

/-- The batch of two, which another thread flushes before it is finished. -/
def pairRun : List WriteEvent :=
  pairLeads ++ [.apply 1 [], .engine .flush, .finish 1, .wake 2]

/-- One more call. -/
def joinRun : List WriteEvent := [.call (putByte 1 2), .apply 3 [], .finish 3]

theorem group_commit_join : ∃ w₁ w₂, (Writers.start (DB.create {})).run pairRun = some w₁ ∧
    w₁.run joinRun = some w₂ ∧ w₂.Orderly ∧ w₂.OnStore (DB.create {}) ∧
    (w₁.calls.map Call.seq) = [1, 2, 3] ∧ (w₂.calls.map Call.seq) = [1, 2, 3, 4] ∧
    w₂.store.dir.wal = some (Wal.encodeRecord ⟨.put, 4, [1], [2]⟩) := by
  have h : (((Writers.start (DB.create {})).run pairRun).bind fun w₁ => (w₁.run joinRun).map fun w₂ =>
      (w₁.calls.map Call.seq, w₂.calls.map Call.seq, w₂.store.dir.wal)) =
      some ([1, 2, 3], [1, 2, 3, 4], some (Wal.encodeRecord ⟨.put, 4, [1], [2]⟩)) := by
    decide +kernel
  obtain ⟨w₁, h₁, h⟩ := Option.bind_eq_some_iff.1 h
  obtain ⟨w₂, h₂, hseq⟩ := Option.map_eq_some_iff.1 h
  obtain ⟨hs₁, hrest⟩ := Prod.mk.inj hseq
  obtain ⟨hs₂, hwal⟩ := Prod.mk.inj hrest
  have hlen : w₂.calls.length = 4 := by
    have := congrArg List.length hs₂
    simpa using this
  have hwrap : (DB.create {}).nextSeq.toNat + w₂.calls.length < 2 ^ 64 := by
    rw [hlen]
    decide
  have hcommit := group_commit h₁ h₂ hwrap
  exact ⟨w₁, w₂, h₁, h₂, hcommit.1, hcommit.2.1, hs₁, hs₂, hwal⟩

/-- A directory whose log ends with the number `2^64 - 2`. -/
def lastSeqDir : Dir :=
  { wal := some (Wal.encodeRecord ⟨.put, 0xFFFFFFFFFFFFFFFE, [1], [1]⟩), manifest := some [] }

/-- Two calls, one after the other: the counter wraps, and the later one has the smaller
    number. -/
theorem group_commit_wraps : ∃ db w₁ w₂ c d, DB.open {} [] lastSeqDir = .ok db ∧
    (Writers.start db).run [.call (putByte 1 1), .apply 0 [], .finish 0] = some w₁ ∧
    w₁.run [.call (putByte 1 2), .apply 1 [], .finish 1] = some w₂ ∧
    w₁.calls[0]? = some c ∧ c.pc = .returned ∧ w₁.calls.length ≤ 1 ∧ w₂.calls[1]? = some d ∧
    (1, d.record) ∈ assignedIn w₂.log ∧ ¬ c.seq < d.seq := by
  have h : ((DB.open {} [] lastSeqDir).toOption.bind fun db =>
      ((Writers.start db).run [.call (putByte 1 1), .apply 0 [], .finish 0]).bind fun w₁ =>
      (w₁.run [.call (putByte 1 2), .apply 1 [], .finish 1]).bind fun w₂ =>
      (w₁.calls[0]?).bind fun c => (w₂.calls[1]?).map fun d =>
      decide (c.pc = .returned ∧ w₁.calls.length ≤ 1 ∧ (1, d.record) ∈ assignedIn w₂.log ∧
        ¬ c.seq < d.seq)) = some true := by
    decide +kernel
  obtain ⟨db, hdb, h⟩ := Option.bind_eq_some_iff.1 h
  obtain ⟨w₁, h₁, h⟩ := Option.bind_eq_some_iff.1 h
  obtain ⟨w₂, h₂, h⟩ := Option.bind_eq_some_iff.1 h
  obtain ⟨c, hc, h⟩ := Option.bind_eq_some_iff.1 h
  obtain ⟨d, hd, h⟩ := Option.map_eq_some_iff.1 h
  obtain ⟨hpc, hlen, hmem, hlt⟩ := of_decide_eq_true h
  exact ⟨db, w₁, w₂, c, d, eq_ok_of_toOption hdb, h₁, h₂, hc, hpc, hlen, hd, hmem, hlt⟩

end Keystone
