/-
  Waiting on `cv_`.

  The compaction thread and every call of `DB::compact` wait on one condition variable, for
  different conditions, and are woken by `notify_one` where compaction is armed and by
  `notify_all` where a round ends. The engine model lets a thread go on as soon as its condition
  holds. Here the threads are explicit: who sleeps, whom a `notify_one` picks, and wake-ups for no
  reason. `cv_exact`: no thread ever sleeps through its condition, so every step of the engine
  can be taken at once by a thread that is awake; and the destructor's `notify_one` reaches the
  compaction thread.

  The destructor sets `stop_` under the lock and notifies behind it. Here this is one step: the
  state in between, in which the compaction thread may still sleep, is left out.
-/
import Keystone.EngineSteps
import Keystone.Lib.Monitor

namespace Keystone

open Monitor

/-! ## The machine -/

/-- Who waits on `cv_`. The calls of `compact` are numbered. -/
inductive Waiter where
  | worker
  | caller (i : Nat)
  deriving DecidableEq

/-- The predicates of the two waits. -/
def Waiter.cond : Waiter → DB × Bool → Prop
  | .worker, (db, stop) => stop = true ∨ db.compactionPending = true
  | .caller _, (db, _) => db.compactionPending = false ∧ db.job = none

/-- What a step notifies. -/
def DB.signal (db : DB) (ev : Event) (db' : DB) : Signal :=
  match ev with
  | .flush | .maybeFlush | .compactCall | .compactWake =>
    if db'.compactionPending ∧ db.compactionPending = false then .one else .none
  | .commit => .all
  | .pick _ => if db'.job.isNone then .all else .none
  | _ => .none

/-- The process: `callers` are the calls of `compact` in their loop, `calls` is how many there
    were. -/
structure Waiters where
  db : DB
  callers : Finset Nat := ∅
  asleep : Finset Waiter := ∅
  calls : Nat := 0
  stop : Bool := false
  exited : Bool := false

/-- A section under `mu_`, with the choice of the thread that `notify_one` wakes; a wait that
    finds its predicate false; a wake-up for no reason. -/
inductive WaitEvent where
  | engine (ev : Event) (woken : Option Waiter)
  | call (woken : Option Waiter)
  | resume (i : Nat) (woken : Option Waiter)
  | sleep
  | stop (woken : Option Waiter)
  | exit
  | spurious (t : Waiter)

/-- The steps of the compaction thread. -/
def Event.ofWorker : Event → Bool
  | .pick _ | .startWriter | .finishWriter | .commit => true
  | _ => false

/-- Who makes the step: the compaction thread, if it is awake and not stopped, or a call other
    than `compact`, as long as the store is not being destroyed. -/
def Waiters.may (w : Waiters) (ev : Event) : Bool :=
  if ev.ofWorker then
    .worker ∉ w.asleep ∧ w.exited = false ∧ (w.stop = false ∨ w.db.job.isSome)
  else w.stop = false ∧ ev.ofCompact = false

/-- The loop body of `compact` in the call `i`, up to its wait. -/
def Waiters.turn (w : Waiters) (ev : Event) (i : Nat) (woken : Option Waiter) : Option Waiters :=
  (w.db.step ev).bind fun db =>
    (notify w.asleep woken (w.db.signal ev db)).map fun asleep =>
      if DB.compactDone w.db.version then
        { w with db := db, callers := w.callers.erase i, asleep := asleep }
      else { w with
        db := db
        callers := insert i w.callers
        asleep := insert (Waiter.caller i) asleep }

def Waiters.step (w : Waiters) : WaitEvent → Option Waiters
  | .engine ev woken =>
    if w.may ev then
      (w.db.step ev).bind fun db =>
        (notify w.asleep woken (w.db.signal ev db)).map fun asleep =>
          { w with db := db, asleep := asleep }
    else none
  | .call woken =>
    if w.stop = false then
      ({ w with calls := w.calls + 1 } : Waiters).turn .compactCall w.calls woken
    else none
  | .resume i woken =>
    if i ∈ w.callers ∧ .caller i ∉ w.asleep then
      if w.db.compactionPending = false ∧ w.db.job.isNone then w.turn .compactWake i woken
      else some { w with asleep := insert (.caller i) w.asleep }
    else none
  | .sleep =>
    if .worker ∉ w.asleep ∧ w.stop = false ∧ w.db.compactionPending = false ∧ w.db.job.isNone then
      some { w with asleep := insert .worker w.asleep }
    else none
  | .stop woken =>
    -- no other call may be in progress when the destructor runs
    if w.stop = false ∧ w.callers = ∅ then
      (notify w.asleep woken .one).map fun asleep => { w with stop := true, asleep := asleep }
    else none
  | .exit =>
    if w.stop ∧ .worker ∉ w.asleep ∧ w.db.job.isNone then some { w with exited := true } else none
  | .spurious t => if t ∈ w.asleep then some { w with asleep := w.asleep.erase t } else none

/-! ## What a step does to the conditions -/

/-- The four kinds of steps: compaction is armed, a round begins, a round ends, or none of it. -/
inductive DB.CvKind (db : DB) (ev : Event) (db' : DB) : Prop where
  | same (signal : db.signal ev db' = .none)
      (pending : db'.compactionPending = db.compactionPending)
      (job : db'.job = none ↔ db.job = none)
  | arms (signal : db.signal ev db' = .one) (pending : db.compactionPending = false)
      (job : db.job = none) (job' : db'.job = none)
  | begins (signal : db.signal ev db' = .none) (pending : db'.compactionPending = false)
      (job' : db'.job ≠ none) (worker : ev.ofWorker = true)
  | ends (signal : db.signal ev db' = .all) (job' : db'.job = none)

theorem DB.signal_of_or {db db' : DB} {ev : Event} {b : Bool}
    (hev : ev = .flush ∨ ev = .maybeFlush ∨ ev = .compactCall ∨ ev = .compactWake)
    (hp : db'.compactionPending = (db.compactionPending || (b && db.job.isNone)))
    (hj : db'.job = db.job) : db.CvKind ev db' := by
  have hsig : db.signal ev db' =
      if db'.compactionPending ∧ db.compactionPending = false then .one else .none := by
    rcases hev with rfl | rfl | rfl | rfl <;> rfl
  by_cases hone : db'.compactionPending ∧ db.compactionPending = false
  · have hnone : db.job = none := by
      have h := hone.1
      rw [hp, hone.2, Bool.false_or, Bool.and_eq_true, Option.isNone_iff_eq_none] at h
      exact h.2
    exact .arms (hsig.trans (if_pos hone)) hone.2 hnone (hj.trans hnone)
  · refine .same (hsig.trans (if_neg hone)) ?_ (by rw [hj])
    cases hb : db.compactionPending with
    | true => rw [hp, hb, Bool.true_or]
    | false =>
      cases hb' : db'.compactionPending with
      | false => rfl
      | true => exact absurd ⟨hb', hb⟩ hone

theorem DB.cv_turn {db db₁ : DB} {ev : Event} (hev : ev = .compactCall ∨ ev = .compactWake)
    (hp : db₁.compactionPending = db.compactionPending) (hj : db₁.job = db.job) :
    db.CvKind ev db₁.compactTurn := by
  have hev' : ev = .flush ∨ ev = .maybeFlush ∨ ev = .compactCall ∨ ev = .compactWake :=
    Or.inr (Or.inr hev)
  rcases compactTurn_inv db₁ with ⟨-, he⟩ | ⟨-, he⟩
  · refine @DB.signal_of_or db _ ev false hev' ?_ ?_ <;> rw [he]
    · rw [Bool.false_and, Bool.or_false]
      exact hp
    · exact hj
  · refine @DB.signal_of_or db _ ev true hev' ?_ ?_ <;> rw [he]
    · rw [Bool.true_and, ← hp, ← hj]
    · exact hj

theorem DB.cv_flush {db db' : DB} {ev : Event} (hev : ev = .flush ∨ ev = .maybeFlush)
    (h : db.flush = some db') : db.CvKind ev db' := by
  have hev' : ev = .flush ∨ ev = .maybeFlush ∨ ev = .compactCall ∨ ev = .compactWake :=
    hev.imp_right Or.inl
  rcases flush_shape h with ⟨-, rfl⟩ | ⟨-, -, file, fm, -, rfl⟩
  · exact @DB.signal_of_or db' _ ev false hev' (by simp) rfl
  · exact DB.signal_of_or hev' rfl rfl

/-- **What a step does to the conditions.** -/
theorem DB.cv_kind {db db' : DB} {ev : Event} (hr : ∀ opts coins, ev ≠ .reopen opts coins)
    (h : db.step ev = some db') : db.CvKind ev db' := by
  cases ev with
  | assign reqs =>
    obtain ⟨-, -, rfl⟩ := assign_inv h
    exact .same rfl rfl Iff.rfl
  | apply coins =>
    obtain ⟨-, rfl⟩ := apply_inv h
    exact .same rfl rfl Iff.rfl
  | flush => exact DB.cv_flush (Or.inl rfl) h
  | maybeFlush =>
    rcases maybeFlush_inv h with ⟨-, h⟩ | ⟨-, rfl⟩
    · exact DB.cv_flush (Or.inr rfl) h
    · exact @DB.signal_of_or db' _ _ false (Or.inr (Or.inl rfl)) (by simp) rfl
  | getSnapshot =>
    obtain rfl := Option.some.inj h
    exact .same rfl rfl Iff.rfl
  | releaseSnapshot seq =>
    obtain rfl := Option.some.inj h
    exact .same rfl rfl Iff.rfl
  | compactCall =>
    obtain rfl := Option.some.inj h
    exact DB.cv_turn (Or.inl rfl) rfl rfl
  | compactWake =>
    obtain ⟨-, -, -, rfl⟩ := compactWake_inv h
    exact DB.cv_turn (Or.inr rfl) rfl rfl
  | pick pq =>
    obtain ⟨-, hj, ⟨-, rfl⟩ | ⟨-, sources, -, rfl⟩⟩ := pick_shape h
    · exact .ends (if_pos (by simp [hj])) hj
    · exact .begins rfl rfl (by simp) rfl
  | startWriter =>
    obtain ⟨job, chunk, chunks, outputs, hj, -, rfl⟩ := startWriter_inv h
    exact .same rfl rfl (by simp [hj])
  | finishWriter =>
    obtain ⟨job, chunks, number, chunk, outputs, file, fm, hj, -, rfl⟩ := finishWriter_shape h
    exact .same rfl rfl (by simp [hj])
  | commit =>
    obtain ⟨job, outputs, -, ⟨-, rfl⟩ | ⟨-, rfl⟩⟩ := commit_inv h
    · exact .ends rfl rfl
    · exact .ends rfl rfl
  | unlink number =>
    obtain ⟨-, rfl⟩ := unlink_inv h
    exact .same rfl rfl Iff.rfl
  | reopen opts coins => exact absurd rfl (hr opts coins)

/-! ## The invariant -/

/-- No thread sleeps through its condition, and `waiting` counts the calls in their loop. -/
structure Waiters.Awake (w : Waiters) : Prop where
  silent : Silent Waiter.cond (w.db, w.stop) w.asleep
  worker : .worker ∈ w.asleep → w.db.job = none
  caller : ∀ i, .caller i ∈ w.asleep → i ∈ w.callers
  count : w.callers.card = w.db.waiting
  fresh : ∀ i ∈ w.callers, i < w.calls
  exits : w.exited = true → w.stop = true

namespace Waiters.Awake

variable {w w' : Waiters} {db' : DB} {ev : Event} {woken : Option Waiter} {asleep' : Finset Waiter}

/-- Where compaction can be armed, only the compaction thread may be asleep. -/
theorem only_worker (h : w.Awake) (hp : w.db.compactionPending = false) (hj : w.db.job = none) :
    w.asleep ⊆ {.worker} := by
  intro t ht
  cases t with
  | worker => exact Finset.mem_singleton_self _
  | caller i => exact absurd ⟨hp, hj⟩ (h.silent _ ht)

/-- **A section** leaves nobody asleep whose condition holds. -/
theorem section_silent (h : w.Awake) (hr : ∀ opts coins, ev ≠ .reopen opts coins)
    (hw : ev.ofWorker = true → .worker ∉ w.asleep) (hstep : w.db.step ev = some db')
    (hn : notify w.asleep woken (w.db.signal ev db') = some asleep') :
    Silent Waiter.cond (db', w.stop) asleep' ∧ (.worker ∈ asleep' → db'.job = none) := by
  cases DB.cv_kind hr hstep with
  | same signal pending job =>
    rw [signal] at hn
    obtain rfl := Option.some.inj hn
    refine ⟨h.silent.quiet fun t _ => ?_, fun hmem => job.2 (h.worker hmem)⟩
    cases t with
    | worker => exact Or.imp_right fun hp => pending ▸ hp
    | caller i => exact fun hc => ⟨pending ▸ hc.1, job.1 hc.2⟩
  | arms signal pending job job' =>
    rw [signal] at hn
    exact ⟨silent_one (h.only_worker pending job) hn, fun _ => job'⟩
  | begins signal pending job' worker =>
    rw [signal] at hn
    obtain rfl := Option.some.inj hn
    refine ⟨h.silent.quiet fun t ht => ?_, fun hmem => absurd hmem (hw worker)⟩
    cases t with
    | worker => exact absurd ht (hw worker)
    | caller i => exact fun hc => absurd hc.2 job'
  | ends signal job' =>
    rw [signal] at hn
    exact ⟨silent_all hn, fun _ => job'⟩

theorem engine (h : w.Awake) (hstep : w.step (.engine ev woken) = some w') : w'.Awake := by
  simp only [Waiters.step] at hstep
  split at hstep
  · rename_i hmay
    obtain ⟨db, hdb, hstep⟩ := Option.bind_eq_some_iff.1 hstep
    obtain ⟨asleep, hn, rfl⟩ := Option.map_eq_some_iff.1 hstep
    have hkind : ev.ofCompact = false ∧ (ev.ofWorker = true → .worker ∉ w.asleep) := by
      unfold Waiters.may at hmay
      split at hmay
      · rename_i hworker
        refine ⟨?_, fun _ => (of_decide_eq_true hmay).1⟩
        cases ev <;> first | rfl | exact absurd hworker Bool.false_ne_true
      · rename_i hworker
        exact ⟨(of_decide_eq_true hmay).2, fun he => absurd he hworker⟩
    have hr : ∀ opts coins, ev ≠ .reopen opts coins := by
      rintro opts coins rfl
      exact nomatch hkind.1
    obtain ⟨hsilent, hworker⟩ := h.section_silent hr hkind.2 hdb hn
    refine ⟨hsilent, hworker, fun i hi => h.caller i (notify_subset hn hi), ?_, h.fresh, h.exits⟩
    rw [((DB.step_frame hdb).calls hkind.1).1]
    exact h.count
  · exact nomatch hstep

/-- The loop body of `compact` in a call. -/
theorem turn (h : w.Awake) (hev : ev = .compactCall ∨ ev = .compactWake) {i : Nat}
    (hi : .caller i ∉ w.asleep) (hlt : i < w.calls)
    (hcount : ∀ db, w.db.step ev = some db → db.waiting =
      if DB.compactDone w.db.version then (w.callers.erase i).card else (insert i w.callers).card)
    (hstep : w.turn ev i woken = some w') : w'.Awake := by
  obtain ⟨db, hdb, hstep⟩ := Option.bind_eq_some_iff.1 hstep
  obtain ⟨asleep, hn, hw'⟩ := Option.map_eq_some_iff.1 hstep
  have hr : ∀ opts coins, ev ≠ .reopen opts coins := by
    rcases hev with rfl | rfl <;> simp
  have hwork : ev.ofWorker = true → .worker ∉ w.asleep := by
    rcases hev with rfl | rfl <;> exact nofun
  obtain ⟨hsilent, hworker⟩ := h.section_silent hr hwork hdb hn
  have hsub := notify_subset hn
  have hwait := hcount db hdb
  split at hw'
  · rename_i hdone
    obtain rfl := hw'
    refine ⟨hsilent, hworker, fun j hj => ?_, ?_, fun j hj => h.fresh j (Finset.mem_of_mem_erase hj),
      h.exits⟩
    · refine Finset.mem_erase.2 ⟨?_, h.caller j (hsub hj)⟩
      rintro rfl
      exact hi (hsub hj)
    · rw [hwait, if_pos hdone]
  · rename_i hdone
    obtain rfl := hw'
    -- the call has armed compaction, or it was armed or running
    have hcond : ¬ Waiter.cond (.caller i) (db, w.stop) := by
      rintro ⟨hp, hj⟩
      have hturn : ∀ db₁ : DB, db₁.version = w.db.version → db = db₁.compactTurn → False := by
        intro db₁ hver he
        rcases DB.compactTurn_inv db₁ with ⟨hd, -⟩ | ⟨-, ht⟩
        · exact hdone (hver ▸ hd)
        · rw [he, ht] at hp hj
          have hj : db₁.job = none := hj
          simp [hj] at hp
      rcases hev with rfl | rfl
      · exact hturn { w.db with forceCompact := true, waiting := w.db.waiting + 1 } rfl
          (Option.some.inj hdb).symm
      · exact hturn w.db rfl (DB.compactWake_inv hdb).2.2.2
    refine ⟨hsilent.insert hcond, fun hmem => hworker ?_, fun j hj => ?_, ?_, fun j hj => ?_, h.exits⟩
    · exact (Finset.mem_insert.1 hmem).resolve_left (by simp)
    · rcases Finset.mem_insert.1 hj with he | hj
      · rw [Waiter.caller.inj he]
        exact Finset.mem_insert_self _ _
      · exact Finset.mem_insert_of_mem (h.caller j (hsub hj))
    · rw [hwait, if_neg hdone]
    · rcases Finset.mem_insert.1 hj with rfl | hj
      · exact hlt
      · exact h.fresh j hj

theorem call (h : w.Awake) (hstep : w.step (.call woken) = some w') : w'.Awake := by
  simp only [Waiters.step] at hstep
  split at hstep
  · have hnew : w.calls ∉ w.callers := fun hmem => lt_irrefl _ (h.fresh _ hmem)
    have h₁ : ({ w with calls := w.calls + 1 } : Waiters).Awake :=
      ⟨h.silent, h.worker, h.caller, h.count, fun i hi => Nat.lt_succ_of_lt (h.fresh i hi), h.exits⟩
    refine h₁.turn (Or.inl rfl) (fun hmem => hnew (h.caller _ hmem)) (Nat.lt_succ_self _)
      (fun db hdb => ?_) hstep
    obtain rfl := Option.some.inj hdb
    rcases DB.compactTurn_inv { w.db with forceCompact := true, waiting := w.db.waiting + 1 } with
      ⟨hd, he⟩ | ⟨hd, he⟩
    · rw [if_pos hd, DB.compactCall, he, Finset.erase_eq_of_notMem hnew]
      exact h.count.symm
    · rw [if_neg (by simpa using hd), DB.compactCall, he, Finset.card_insert_of_notMem hnew]
      exact congrArg (· + 1) h.count.symm
  · exact nomatch hstep

theorem resume (h : w.Awake) {i : Nat} (hstep : w.step (.resume i woken) = some w') : w'.Awake := by
  simp only [Waiters.step] at hstep
  split at hstep
  · rename_i hi
    split at hstep
    · refine h.turn (Or.inr rfl) hi.2 (h.fresh i hi.1) (fun db hdb => ?_) hstep
      obtain ⟨-, -, -, rfl⟩ := DB.compactWake_inv hdb
      rcases DB.compactTurn_inv w.db with ⟨hd, he⟩ | ⟨hd, he⟩
      · rw [if_pos hd, he, Finset.card_erase_of_mem hi.1]
        exact congrArg (· - 1) h.count.symm
      · rw [if_neg (by simpa using hd), he, Finset.insert_eq_of_mem hi.1]
        exact h.count.symm
    · rename_i hcond
      obtain rfl := Option.some.inj hstep
      refine ⟨h.silent.insert fun hc => hcond ⟨hc.1, Option.isNone_iff_eq_none.2 hc.2⟩,
        fun hmem => h.worker ((Finset.mem_insert.1 hmem).resolve_left (by simp)), fun j hj => ?_,
        h.count, h.fresh, h.exits⟩
      rcases Finset.mem_insert.1 hj with he | hj
      · exact Waiter.caller.inj he ▸ hi.1
      · exact h.caller j hj
  · exact nomatch hstep

theorem sleep (h : w.Awake) (hstep : w.step .sleep = some w') : w'.Awake := by
  simp only [Waiters.step] at hstep
  split at hstep
  · rename_i hc
    obtain rfl := Option.some.inj hstep
    obtain ⟨-, hstop, hp, hj⟩ := hc
    refine ⟨h.silent.insert fun hcond => ?_, fun _ => Option.isNone_iff_eq_none.1 hj,
      fun i hi => h.caller i ((Finset.mem_insert.1 hi).resolve_left (by simp)), h.count, h.fresh,
      h.exits⟩
    exact hcond.elim (fun ht => nomatch hstop.symm.trans ht) fun ht => nomatch hp.symm.trans ht
  · exact nomatch hstep

/-- **One step.** -/
theorem step (h : w.Awake) {e : WaitEvent} (hstep : w.step e = some w') : w'.Awake := by
  cases e with
  | engine ev woken => exact h.engine hstep
  | call woken => exact h.call hstep
  | resume i woken => exact h.resume hstep
  | sleep => exact h.sleep hstep
  | stop woken =>
    simp only [Waiters.step] at hstep
    split at hstep
    · rename_i hc
      obtain ⟨asleep, hn, rfl⟩ := Option.map_eq_some_iff.1 hstep
      have honly : w.asleep ⊆ {.worker} := by
        intro t ht
        cases t with
        | worker => exact Finset.mem_singleton_self _
        | caller i =>
          have hmem := h.caller i ht
          rw [hc.2] at hmem
          exact absurd hmem (Finset.notMem_empty i)
      have hsub := notify_subset hn
      exact ⟨silent_one honly hn, fun hmem => h.worker (hsub hmem), fun i hi => h.caller i (hsub hi),
        h.count, h.fresh, fun _ => rfl⟩
    · exact nomatch hstep
  | exit =>
    simp only [Waiters.step] at hstep
    split at hstep
    · rename_i hc
      obtain rfl := Option.some.inj hstep
      exact ⟨h.silent, h.worker, h.caller, h.count, h.fresh, fun _ => hc.1⟩
    · exact nomatch hstep
  | spurious t =>
    simp only [Waiters.step] at hstep
    split at hstep
    · obtain rfl := Option.some.inj hstep
      have hsub := Finset.erase_subset t w.asleep
      exact ⟨h.silent.mono hsub, fun hmem => h.worker (hsub hmem), fun i hi => h.caller i (hsub hi),
        h.count, h.fresh, h.exits⟩
    · exact nomatch hstep

/-! ## The engine model is exact -/

/-- The compaction thread is awake when there is something for it to do. -/
theorem worker_awake (h : w.Awake) (hev : ev.ofWorker = true) (hstep : w.db.step ev = some db') :
    .worker ∉ w.asleep := by
  intro hmem
  have hnone := DB.no_job (h.worker hmem)
  cases ev with
  | pick pq => exact h.silent _ hmem (Or.inr (DB.pick_shape hstep).1)
  | startWriter => exact nomatch hnone.1.symm.trans hstep
  | finishWriter => exact nomatch hnone.2.1.symm.trans hstep
  | commit => exact nomatch hnone.2.2.symm.trans hstep
  | _ => exact nomatch hev

theorem may (h : w.Awake) (hstop : w.stop = false) (hev : ev.ofCompact = false)
    (hstep : w.db.step ev = some db') : w.may ev = true := by
  unfold Waiters.may
  split
  · rename_i hworker
    refine decide_eq_true ⟨h.worker_awake hworker hstep, ?_, Or.inl hstop⟩
    cases he : w.exited with
    | false => rfl
    | true => exact nomatch hstop.symm.trans (h.exits he)
  · exact decide_eq_true ⟨hstop, hev⟩

theorem exists_turn {i : Nat} (hstep : w.db.step ev = some db') :
    ∃ woken w', w.turn ev i woken = some w' ∧ w'.db = db' := by
  obtain ⟨woken, asleep, hn⟩ := exists_notify w.asleep (w.db.signal ev db')
  refine ⟨woken, _, by rw [Waiters.turn, hstep, Option.bind_some, hn, Option.map_some], ?_⟩
  split <;> rfl

/-- **Every step of the engine can be taken at once**, by a thread that is awake. -/
theorem enabled (h : w.Awake) (hstop : w.stop = false)
    (hr : ∀ opts coins, ev ≠ .reopen opts coins) (hstep : w.db.step ev = some db') :
    ∃ e w', w.step e = some w' ∧ w'.db = db' := by
  cases hc : ev.ofCompact with
  | false =>
    obtain ⟨woken, asleep, hn⟩ := exists_notify w.asleep (w.db.signal ev db')
    refine ⟨.engine ev woken, { w with db := db', asleep := asleep }, ?_, rfl⟩
    simp only [Waiters.step, if_pos (h.may hstop hc hstep), hstep, Option.bind_some, hn,
      Option.map_some]
  | true =>
    cases ev with
    | compactCall =>
      obtain ⟨woken, w', hturn, hdb⟩ := @exists_turn { w with calls := w.calls + 1 } db' .compactCall
        w.calls hstep
      exact ⟨.call woken, w', (if_pos hstop).trans hturn, hdb⟩
    | compactWake =>
      obtain ⟨hpos, hp, hj, -⟩ := DB.compactWake_inv hstep
      obtain ⟨i, hi⟩ := Finset.card_pos.1 (h.count.symm ▸ hpos)
      have hawake : .caller i ∉ w.asleep := fun hmem => h.silent _ hmem ⟨hp, hj⟩
      obtain ⟨woken, w', hturn, hdb⟩ := @exists_turn w db' .compactWake i hstep
      refine ⟨.resume i woken, w', ?_, hdb⟩
      simp only [Waiters.step, if_pos (And.intro hi hawake), hp, hj, Option.isNone_none, and_self,
        if_true]
      exact hturn
    | reopen opts coins => exact absurd rfl (hr opts coins)
    | _ => exact nomatch hc

end Waiters.Awake

/-- A step of the threads is a step of the engine, or none. -/
theorem Waiters.step_engine {w w' : Waiters} {e : WaitEvent} (h : w.step e = some w') :
    w'.db = w.db ∨ ∃ ev, w.db.step ev = some w'.db := by
  have hturn : ∀ {w : Waiters} {ev : Event} {i : Nat} {woken : Option Waiter},
      w.turn ev i woken = some w' → w.db.step ev = some w'.db := by
    intro w ev i woken ht
    obtain ⟨db, hdb, ht⟩ := Option.bind_eq_some_iff.1 ht
    obtain ⟨asleep, -, rfl⟩ := Option.map_eq_some_iff.1 ht
    split <;> exact hdb
  cases e with
  | engine ev woken =>
    simp only [Waiters.step] at h
    split at h
    · obtain ⟨db, hdb, h⟩ := Option.bind_eq_some_iff.1 h
      obtain ⟨asleep, -, rfl⟩ := Option.map_eq_some_iff.1 h
      exact Or.inr ⟨ev, hdb⟩
    · exact nomatch h
  | call woken =>
    simp only [Waiters.step] at h
    split at h
    · exact Or.inr ⟨.compactCall, @hturn { w with calls := w.calls + 1 } _ _ _ h⟩
    · exact nomatch h
  | resume i woken =>
    simp only [Waiters.step] at h
    split at h
    · split at h
      · exact Or.inr ⟨_, hturn h⟩
      · exact Or.inl (Option.some.inj h ▸ rfl)
    · exact nomatch h
  | stop woken =>
    simp only [Waiters.step] at h
    split at h
    · obtain ⟨asleep, -, rfl⟩ := Option.map_eq_some_iff.1 h
      exact Or.inl rfl
    · exact nomatch h
  | _ =>
    simp only [Waiters.step] at h
    split at h
    · exact Or.inl (Option.some.inj h ▸ rfl)
    · exact nomatch h

/-- **No wake-up is lost on `cv_`.** In every state of every run of the threads, whichever thread
    a `notify_one` picks and whoever wakes up for no reason: the state is one the engine reaches;
    no thread is asleep whose condition holds; as long as the store is not being destroyed,
    every step of the engine can be taken at once by a thread that is awake; and when it is, the
    compaction thread can end as soon as no round is in progress. -/
theorem cv_exact {db : DB} (hidle : db.job = none ∧ db.waiting = 0) {evs : List WaitEvent}
    {w : Waiters} (hrun : Steps.run Waiters.step ⟨db, ∅, ∅, 0, false, false⟩ evs = some w) :
    (∃ evs', db.run evs' = some w.db) ∧
    (∀ t ∈ w.asleep, ¬ t.cond (w.db, w.stop)) ∧
    (w.stop = false → ∀ ev db', (∀ opts coins, ev ≠ .reopen opts coins) →
      w.db.step ev = some db' → ∃ e w', w.step e = some w' ∧ w'.db = db') ∧
    (w.stop = true → w.db.job = none → ∃ w', w.step .exit = some w' ∧ w'.exited = true) := by
  have hstart : (⟨db, ∅, ∅, 0, false, false⟩ : Waiters).Awake :=
    ⟨by simp [Silent], by simp, by simp, hidle.2.symm, by simp, by simp⟩
  have h : w.Awake := Steps.run_invariant (fun _ _ _ ha _ hstep => Waiters.Awake.step ha hstep) hstart
    (Steps.Meets.of_forall fun _ _ => trivial) hrun
  have hevs : ∃ evs', db.run evs' = some w.db :=
    Steps.run_projects Waiters.db (fun _ _ _ => Waiters.step_engine) hrun
  refine ⟨hevs, h.silent, fun hstop ev db' hr hstep => h.enabled hstop hr hstep,
    fun hstop hjob => ⟨{ w with exited := true }, if_pos ⟨hstop, ?_, ?_⟩, rfl⟩⟩
  · exact fun hmem => h.silent _ hmem (Or.inl hstop)
  · rw [hjob]
    rfl

/-- Two flushed tables; the compaction thread goes to sleep and is woken by a call of `compact`,
    which then sleeps itself. -/
def awaitedRound : List WaitEvent :=
  (callPut 1 1 ++ [Event.flush] ++ callPut 2 1 ++ [Event.flush]).map (WaitEvent.engine · none) ++
    [.sleep, .call (some .worker), .engine (.pick plainQueue) none]

theorem cv_exact_awaited : ∃ w db',
    Steps.run Waiters.step ⟨DB.create {}, ∅, ∅, 0, false, false⟩ awaitedRound = some w ∧
    w.asleep = {.caller 0} ∧ w.db.step .startWriter = some db' ∧
    ∃ e w', w.step e = some w' ∧ w'.db = db' := by
  have h : ((Steps.run Waiters.step ⟨DB.create {}, ∅, ∅, 0, false, false⟩ awaitedRound).any fun w =>
      decide (w.asleep = {.caller 0} ∧ w.stop = false) && (w.db.step .startWriter).isSome) = true := by
    decide +kernel
  obtain ⟨w, hrun, h⟩ := (Option.any_eq_true _ _).1 h
  rw [Bool.and_eq_true, decide_eq_true_eq] at h
  obtain ⟨db', hstep⟩ := Option.isSome_iff_exists.1 h.2
  exact ⟨w, db', hrun, h.1.1, hstep,
    (cv_exact ⟨rfl, rfl⟩ hrun).2.2.1 h.1.2 _ _ (by simp) hstep⟩

end Keystone
