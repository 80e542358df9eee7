/-
  `DB::write` when the leader fails.

  `append_batch`, the inserts into the memtable and `maybe_flush` can all throw. The exception
  leaves `DB::write` between the assignment of the sequence numbers and the pop: the requests of
  the batch stay in `write_queue_` and none of them is marked done. A call that has thrown takes
  no more steps, and its `WriteRequest` is gone with its stack frame. The pointer to it stays; a
  later call whose `WriteRequest` lies at the same address finds it in the queue and takes it for
  its own (`reuse`).

  `healthy_iff`: the queue is healthy in every state of a run exactly if no leader throws in it.
-/
import Keystone.GroupCommit

namespace Keystone

/-- The writers; the exceptions so far, each with the call and the batch it led; and the calls
    whose `WriteRequest` is gone. -/
structure Failing where
  writers : Writers
  thrown : List (Nat × List Nat) := []
  gone : List Nat := []

/-- A step of the writers; an exception in a leader, where `left` is what the failed section
    leaves of the engine; a call at the address of a `WriteRequest` that is gone. -/
inductive FailEvent where
  | run (ev : WriteEvent)
  | fail (id : Nat) (left : DB)
  | reuse (id : Nat) (op : Op)

/-- The call that takes the step. -/
def WriteEvent.caller : WriteEvent → Option Nat
  | .lead id => some id
  | .apply id _ => some id
  | .finish id => some id
  | .wake id => some id
  | _ => none

/-- The batch of a call that leads. -/
def Pc.batch : Pc → Option (List Nat)
  | .appending batch => some batch
  | .finishing batch => some batch
  | _ => none

namespace Failing

def start (db : DB) : Failing := { writers := .start db }

/-- The exception. None of the sections that can throw touches `next_seq_`, the queue or a
    request. -/
def fail (f : Failing) (id : Nat) (left : DB) : Option Failing :=
  if id ∈ f.gone then none
  else
    match (f.writers.calls[id]?).bind fun c => c.pc.batch with
    | some batch =>
      some {
        writers := { f.writers with store := { left with nextSeq := f.writers.store.nextSeq } }
        thrown := (id, batch) :: f.thrown
        gone := id :: f.gone }
    | none => none

/-- The section a call begins with, at an address that the queue still holds. -/
def reuse (f : Failing) (id : Nat) (op : Op) : Option Failing :=
  if id ∈ f.gone then
    let w := { f.writers with
      calls := f.writers.calls.set id { op := op }
      queue := f.writers.queue ++ [id] }
    some { f with writers := (w.lead id).getD w, gone := f.gone.filter (· ≠ id) }
  else none

def step (f : Failing) : FailEvent → Option Failing
  | .run ev =>
    if ∃ id ∈ ev.caller, id ∈ f.gone then none
    else (f.writers.step ev).map fun w => { f with writers := w }
  | .fail id left => f.fail id left
  | .reuse id op => f.reuse id op

def run (f : Failing) (evs : List FailEvent) : Option Failing := Steps.run Failing.step f evs

/-- The call is still inside `DB::write`. -/
def Inside (f : Failing) (id : Nat) : Prop :=
  (∃ c, f.writers.calls[id]? = some c ∧ c.pc ≠ .returned) ∧ id ∉ f.gone

/-- Every pointer in `write_queue_` is of a call still inside. -/
def Alive (f : Failing) : Prop := ∀ id ∈ f.writers.queue, f.Inside id

/-- Every request of a batch whose leader threw is done or reported as failed. -/
def Reported (f : Failing) : Prop := ∀ p ∈ f.thrown, ∀ id ∈ p.2,
  (∃ c, f.writers.calls[id]? = some c ∧ c.done = true) ∨ id ∈ f.thrown.map Prod.fst

/-- A call made now can still return, as a leader or served by one, by the steps of the protocol
    alone. -/
def Serves (f : Failing) : Prop := ∀ op, ∃ (evs : List WriteEvent) (f' : Failing) (c : Call),
  f.run ((.call op :: evs).map .run) = some f' ∧
  f'.writers.calls[f.writers.calls.length]? = some c ∧ c.pc = .returned

structure Healthy (f : Failing) : Prop where
  alive : f.Alive
  reported : f.Reported
  serves : f.Serves

end Failing

/-! ## Every call can be served -/

namespace Writers

variable {w w' : Writers}

theorem length_lead {id : Nat} (h : w.lead id = some w') : w'.calls.length = w.calls.length := by
  obtain ⟨c, -, -, -, -, rfl⟩ := lead_inv h
  simp [length_setPc, length_assignSeqs]

/-- How many calls are there after a step. -/
theorem length_step {ev : WriteEvent} (h : w.step ev = some w') :
    w'.calls.length = w.calls.length + if ev matches .call _ then 1 else 0 := by
  cases ev with
  | call op =>
    obtain rfl := Option.some.inj h
    have hlen : (w.enqueue op).calls.length = w.calls.length + 1 := by simp [enqueue]
    show (w.call op).calls.length = w.calls.length + 1
    rcases w.call_cases op with he | hlead
    · rw [he, hlen]
    · rw [length_lead hlead, hlen]
  | lead id => exact length_lead h
  | apply id coins =>
    obtain ⟨c, batch, -, -, rfl⟩ := apply_inv h
    simp [length_setPc]
  | finish id =>
    obtain ⟨c, batch, -, -, rfl⟩ := finish_inv h
    simp [length_setPc, length_markDone]
  | wake id =>
    obtain ⟨c, -, -, -, rfl⟩ := wake_inv h
    simp [length_setPc]
  | engine ev =>
    obtain ⟨-, db, -, rfl⟩ := engine_inv h
    simp

/-- Calls are never forgotten. -/
theorem length_run {evs : List WriteEvent} (h : w.run evs = some w') :
    w.calls.length ≤ w'.calls.length :=
  @Steps.run_invariant _ _ step (fun _ _ => True) w w' evs
    (fun s => w.calls.length ≤ s.calls.length)
    (fun _ _ _ hle _ hs => hle.trans (Nat.le.intro (length_step hs).symm))
    le_rfl (Steps.Meets.of_forall fun _ _ => trivial) h

end Writers

namespace Staged

variable {nextSeq : UInt64} {w : Writers} {m l a : Nat}

/-- While requests are numbered and not finished, call `m` leads them. -/
theorem leader (h : Staged nextSeq w m l a) (hlt : m < a) : ∃ c, w.calls[m]? = some c ∧
    ((l = m ∧ c.pc = .appending (List.range' m (a - m))) ∨
      (l = a ∧ c.pc = .finishing (List.range' m (a - m)))) := by
  have hlen := h.numbered_le
  have hc := List.getElem?_eq_getElem (show m < w.calls.length by omega)
  have hpc := (h.calls m _ hc).pc
  refine ⟨_, hc, ?_⟩
  cases hp : w.calls[m].pc with
  | waiting =>
    rw [hp] at hpc
    have := hpc rfl
    omega
  | appending batch =>
    rw [hp] at hpc
    exact Or.inl ⟨hpc.2.2.1, by rw [hpc.2.2.2]⟩
  | finishing batch =>
    rw [hp] at hpc
    exact Or.inr ⟨hpc.2.2.1, by rw [hpc.2.2.2]⟩
  | returned =>
    rw [hp] at hpc
    exact absurd hpc (lt_irrefl m)

theorem can_apply (h : Staged nextSeq w m m a) (hlt : m < a) :
    ∃ w', w.step (.apply m []) = some w' ∧ Staged nextSeq w' m a a := by
  obtain ⟨c, hc, ⟨-, hpc⟩ | ⟨hl, -⟩⟩ := h.leader hlt
  · obtain ⟨op, seq, done, pc⟩ := c
    subst hpc
    have hstep : ∃ w', w.apply m [] = some w' := by simp [Writers.apply, hc]
    obtain ⟨w', hw'⟩ := hstep
    exact ⟨w', hw', h.apply hw'⟩
  · omega

theorem can_finish (h : Staged nextSeq w m a a) (hlt : m < a) :
    ∃ w', w.step (.finish m) = some w' ∧ Staged nextSeq w' a a a := by
  obtain ⟨c, hc, ⟨hl, -⟩ | ⟨-, hpc⟩⟩ := h.leader hlt
  · omega
  · obtain ⟨op, seq, done, pc⟩ := c
    subst hpc
    have hstep : ∃ w', w.finish m = some w' := by simp [Writers.finish, hc]
    obtain ⟨w', hw'⟩ := hstep
    exact ⟨w', hw', h.finish hw'⟩

/-- The leader can go on to its return. -/
theorem can_settle (h : Staged nextSeq w m l a) :
    ∃ evs w', w.run evs = some w' ∧ Staged nextSeq w' a a a := by
  have h1 := h.finished_le
  have h2 := h.applied_le
  by_cases hlt : m < a
  · obtain ⟨c, hc, ⟨rfl, -⟩ | ⟨rfl, -⟩⟩ := h.leader hlt
    · obtain ⟨w₁, hs₁, h₁⟩ := h.can_apply hlt
      obtain ⟨w₂, hs₂, h₂⟩ := h₁.can_finish hlt
      refine ⟨[.apply l [], .finish l], w₂, ?_, h₂⟩
      simp [Writers.run, Steps.run, hs₁, hs₂]
    · obtain ⟨w₁, hs₁, h₁⟩ := h.can_finish hlt
      refine ⟨[.finish m], w₁, ?_, h₁⟩
      simp [Writers.run, Steps.run, hs₁]
  · obtain rfl : m = a := by omega
    obtain rfl : l = m := by omega
    exact ⟨[], w, rfl, h⟩

/-- With no leader, the call at the front can lead everything there is. -/
theorem can_lead (h : Staged nextSeq w m m m) (hlt : m < w.calls.length) :
    ∃ w', w.step (.lead m) = some w' ∧ Staged nextSeq w' m m w.calls.length := by
  have hc := List.getElem?_eq_getElem hlt
  have hok := h.calls m _ hc
  have hdone : w.calls[m].done = false := by
    rw [← Bool.not_eq_true]
    exact fun hd => absurd (hok.done.1 hd) (lt_irrefl m)
  have hpc : w.calls[m].pc = .waiting := by
    have hpcok := hok.pc
    cases hp : w.calls[m].pc with
    | waiting => rfl
    | appending batch =>
      rw [hp] at hpcok
      exact absurd hpcok.2.1 (lt_irrefl m)
    | finishing batch =>
      rw [hp] at hpcok
      exact absurd hpcok.2.1 (lt_irrefl m)
    | returned =>
      rw [hp] at hpcok
      exact absurd hpcok (lt_irrefl m)
  have hhead : w.queue.head? = some m := by
    rw [h.queue, List.head?_range', if_neg (by omega)]
  have hstep : ∃ w', w.lead m = some w' := by
    simp [Writers.lead, hc, hpc, hdone, hhead]
  obtain ⟨w', hw'⟩ := hstep
  exact ⟨w', hw', h.lead hw'⟩

/-- A call that is finished can return. -/
theorem can_return (h : Staged nextSeq w m l a) {i : Nat} (hi : i < m) :
    ∃ evs w' c, w.run evs = some w' ∧ w'.calls[i]? = some c ∧ c.pc = .returned := by
  have h1 := h.finished_le
  have h2 := h.applied_le
  have h3 := h.numbered_le
  have hc := List.getElem?_eq_getElem (show i < w.calls.length by omega)
  have hok := h.calls i _ hc
  have hpcok := hok.pc
  cases hp : w.calls[i].pc with
  | waiting =>
    have hwake : w.run [.wake i] = some { w with calls := setPc i .returned w.calls } := by
      simp [Writers.run, Steps.run, Writers.step, Writers.wake, hc, hp, hok.done.2 hi]
    have hget : (setPc i .returned w.calls)[i]? = some { w.calls[i] with pc := .returned } := by
      simp [setPc_get, hc]
    exact ⟨_, _, _, hwake, hget, rfl⟩
  | appending batch =>
    rw [hp] at hpcok
    exact absurd hpcok.1 (by omega)
  | finishing batch =>
    rw [hp] at hpcok
    exact absurd hpcok.1 (by omega)
  | returned => exact ⟨[], w, _, rfl, hc, hp⟩

/-- With no leader, a call that waits can go on to its return. -/
theorem can_serve_settled (h : Staged nextSeq w m m m) {i : Nat} (hi : i < w.calls.length) :
    ∃ evs w' c, w.run evs = some w' ∧ w'.calls[i]? = some c ∧ c.pc = .returned := by
  by_cases him : i < m
  · exact h.can_return him
  · obtain ⟨w₁, hs₁, h₁⟩ := h.can_lead (by omega)
    obtain ⟨evs₂, w₂, hr₂, h₂⟩ := h₁.can_settle
    obtain ⟨evs₃, w₃, c, hr₃, hc, hpc⟩ := h₂.can_return hi
    refine ⟨.lead m :: evs₂ ++ evs₃, w₃, c, ?_, hc, hpc⟩
    have hr₁ : w.run (.lead m :: evs₂) = some w₂ := by
      show (w.step (.lead m)).bind (fun w => w.run evs₂) = some w₂
      rw [hs₁, Option.bind_some, hr₂]
    rw [Writers.run, Steps.run_append, ← Writers.run, hr₁, Option.bind_some, ← Writers.run, hr₃]

/-- **No call is stuck**: every call can go on to its return. -/
theorem can_serve (h : Staged nextSeq w m l a) {i : Nat} (hi : i < w.calls.length) :
    ∃ evs w' c, w.run evs = some w' ∧ w'.calls[i]? = some c ∧ c.pc = .returned := by
  obtain ⟨evs₁, w₁, hr₁, h₁⟩ := h.can_settle
  have hlen := Writers.length_run hr₁
  obtain ⟨evs₂, w₂, c, hr₂, hc, hpc⟩ := h₁.can_serve_settled (lt_of_lt_of_le hi hlen)
  refine ⟨evs₁ ++ evs₂, w₂, c, ?_, hc, hpc⟩
  rw [Writers.run, Steps.run_append, ← Writers.run, hr₁, Option.bind_some, ← Writers.run, hr₂]

/-- As long as the leader does not finish, it stays the leader. -/
theorem stuck (h : Staged nextSeq w m l a) (hlt : m < a) {ev : WriteEvent} {w' : Writers}
    (hne : ev ≠ .finish m) (hstep : w.step ev = some w') :
    ∃ l' a', Staged nextSeq w' m l' a' ∧ m < a' := by
  cases ev with
  | call op =>
    obtain ⟨l', a', h', hle⟩ := h.call op
    exact ⟨l', a', Option.some.inj hstep ▸ h', hlt.trans_le hle⟩
  | lead id => exact ⟨_, _, h.lead hstep, lt_of_lt_of_le hlt h.numbered_le⟩
  | apply id coins => exact ⟨_, _, h.apply hstep, hlt⟩
  | finish id =>
    obtain ⟨c, batch, hc, hpc, -⟩ := Writers.finish_inv hstep
    exact absurd (congrArg WriteEvent.finish (h.leads ⟨c, hc, Or.inr hpc⟩).1) hne
  | wake id => exact ⟨_, _, h.wake hstep, hlt⟩
  | engine ev => exact ⟨_, _, h.engine hstep, hlt⟩

end Staged

/-! ## The queue after an exception -/

def FailEvent.isFail : FailEvent → Bool
  | .fail _ _ => true
  | _ => false

namespace Failing

variable {f f' : Failing} {nextSeq : UInt64}

theorem run_inv {ev : WriteEvent} (h : f.step (.run ev) = some f') :
    (∀ id ∈ ev.caller, id ∉ f.gone) ∧
      ∃ w, f.writers.step ev = some w ∧ f' = { f with writers := w } := by
  simp only [step] at h
  split at h
  · simp at h
  · rename_i hcaller
    obtain ⟨w, hw, rfl⟩ := Option.map_eq_some_iff.1 h
    exact ⟨fun id hid hg => hcaller ⟨id, hid, hg⟩, w, hw, rfl⟩

theorem fail_inv {id : Nat} {left : DB} (h : f.step (.fail id left) = some f') :
    ∃ batch, f.writers.Leads id batch ∧ f' = {
      writers := { f.writers with store := { left with nextSeq := f.writers.store.nextSeq } }
      thrown := (id, batch) :: f.thrown
      gone := id :: f.gone } := by
  simp only [step, fail] at h
  split at h
  · simp at h
  · split at h
    · rename_i batch hb
      obtain ⟨c, hc, hpc⟩ := Option.bind_eq_some_iff.1 hb
      refine ⟨batch, ⟨c, hc, ?_⟩, (Option.some.inj h).symm⟩
      cases hp : c.pc with
      | waiting => simp [hp, Pc.batch] at hpc
      | appending b => exact Or.inl (congrArg Pc.appending (by simpa [hp, Pc.batch] using hpc))
      | finishing b => exact Or.inr (congrArg Pc.finishing (by simpa [hp, Pc.batch] using hpc))
      | returned => simp [hp, Pc.batch] at hpc
    · simp at h

/-- No exception so far. -/
structure Unfailed (nextSeq : UInt64) (f : Failing) : Prop where
  staged : ∃ m l a, Staged nextSeq f.writers m l a
  thrown : f.thrown = []
  gone : f.gone = []

theorem unfailed_start (db : DB) : (start db).Unfailed db.nextSeq :=
  ⟨⟨0, 0, 0, staged_start db⟩, rfl, rfl⟩

/-- Without an exception so far, the calls take the steps of the writers. -/
theorem run_writers (h : f.gone = []) {evs : List WriteEvent} {w : Writers}
    (hrun : f.writers.run evs = some w) : f.run (evs.map .run) = some { f with writers := w } := by
  induction evs generalizing f with
  | nil =>
    obtain rfl := Option.some.inj hrun
    rfl
  | cons ev evs ih =>
    obtain ⟨w₁, h₁, hrest⟩ := Option.bind_eq_some_iff.1 hrun
    have hstep : f.step (.run ev) = some { f with writers := w₁ } := by
      have hno : ¬ ∃ id ∈ ev.caller, id ∈ f.gone := by
        rintro ⟨id, -, hg⟩
        simp [h] at hg
      simp only [step, if_neg hno, h₁, Option.map_some]
    show (f.step (.run ev)).bind (fun f => f.run (evs.map .run)) = _
    rw [hstep, Option.bind_some]
    exact @ih { f with writers := w₁ } h hrest

theorem Unfailed.healthy (h : f.Unfailed nextSeq) : f.Healthy where
  alive := by
    obtain ⟨m, l, a, hs⟩ := h.staged
    intro id hid
    have h3 := hs.numbered_le
    rw [hs.queue, List.mem_range'_1] at hid
    have hc := List.getElem?_eq_getElem (show id < f.writers.calls.length by omega)
    refine ⟨⟨_, hc, fun hpc => ?_⟩, by simp [h.gone]⟩
    have hok := (hs.calls id _ hc).pc
    rw [hpc] at hok
    exact absurd hok (not_lt.2 hid.1)
  reported := by
    intro p hp
    simp [h.thrown] at hp
  serves := by
    obtain ⟨m, l, a, hs⟩ := h.staged
    intro op
    have hcalled : f.writers.step (.call op) = some (f.writers.call op) := rfl
    have hlen : (f.writers.call op).calls.length = f.writers.calls.length + 1 :=
      Writers.length_step hcalled
    obtain ⟨l', a', hs', -⟩ := hs.call op
    obtain ⟨evs, w, c, hrun, hc, hpc⟩ := hs'.can_serve (i := f.writers.calls.length) (by omega)
    have hcall : f.writers.run (.call op :: evs) = some w := hrun
    exact ⟨evs, _, c, run_writers h.gone hcall, hc, hpc⟩

/-- A step that is no exception. -/
theorem Unfailed.step {ev : FailEvent} (h : f.Unfailed nextSeq) (hstep : f.step ev = some f')
    (hev : ev.isFail = false) : f'.Unfailed nextSeq := by
  cases ev with
  | run ev =>
    obtain ⟨-, w, hw, rfl⟩ := run_inv hstep
    obtain ⟨m, l, a, hs⟩ := h.staged
    obtain ⟨m', l', a', hs', -⟩ := hs.step hw
    exact ⟨⟨m', l', a', hs'⟩, h.thrown, h.gone⟩
  | fail id left => exact nomatch hev
  | reuse id op => simp [Failing.step, reuse, h.gone] at hstep

/-- The front of the queue is a call that has thrown. -/
structure Stalled (nextSeq : UInt64) (f : Failing) (m : Nat) : Prop where
  staged : ∃ l a, Staged nextSeq f.writers m l a ∧ m < a
  gone : m ∈ f.gone

/-- That is so after the first exception. -/
theorem Unfailed.fail {id : Nat} {left : DB} (h : f.Unfailed nextSeq)
    (hstep : f.step (.fail id left) = some f') : f'.Stalled nextSeq id := by
  obtain ⟨m, l, a, hs⟩ := h.staged
  obtain ⟨batch, hlead, rfl⟩ := fail_inv hstep
  obtain ⟨rfl, -⟩ := hs.leads hlead
  refine ⟨⟨l, a, ⟨hs.finished_le, hs.applied_le, hs.numbered_le, hs.queue, hs.calls,
    hs.nextSeq_eq, hs.assigned, hs.appended, hs.inserted⟩, ?_⟩, List.mem_cons_self⟩
  obtain ⟨c, hc, hpc⟩ := hlead
  have hok := (hs.calls id c hc).pc
  rcases hpc with hpc | hpc <;> rw [hpc] at hok <;> exact hok.2.1

namespace Stalled

variable {m : Nat}

theorem not_alive (h : f.Stalled nextSeq m) : ¬ f.Alive := by
  obtain ⟨l, a, hs, hlt⟩ := h.staged
  have h3 := hs.numbered_le
  intro halive
  have hmem : m ∈ f.writers.queue := by
    rw [hs.queue, List.mem_range'_1]
    omega
  exact (halive m hmem).2 h.gone

/-- The steps of the protocol do not remove it. -/
theorem run (h : f.Stalled nextSeq m) {evs : List WriteEvent}
    (hrun : f.run (evs.map .run) = some f') : f'.Stalled nextSeq m := by
  induction evs generalizing f with
  | nil => exact Option.some.inj hrun ▸ h
  | cons ev evs ih =>
    obtain ⟨f₁, h₁, hrest⟩ := Option.bind_eq_some_iff.1 hrun
    obtain ⟨hcaller, w, hw, rfl⟩ := run_inv h₁
    obtain ⟨l, a, hs, hlt⟩ := h.staged
    have hne : ev ≠ .finish m := by
      rintro rfl
      exact hcaller m rfl h.gone
    obtain ⟨l', a', hs', hlt'⟩ := hs.stuck hlt hne hw
    exact @ih ⟨w, f.thrown, f.gone⟩ ⟨⟨l', a', hs', hlt'⟩, h.gone⟩ hrest

/-- Hence no later call returns. -/
theorem not_serves (h : f.Stalled nextSeq m) : ¬ f.Serves := by
  intro hserves
  obtain ⟨l, a, hs, hlt⟩ := h.staged
  obtain ⟨evs, f', c, hrun, hc, hpc⟩ := hserves (.del [])
  obtain ⟨l', a', hs', -⟩ := (h.run hrun).staged
  have hok := (hs'.calls _ c hc).pc
  have hlen := hs.numbered_le
  rw [hpc] at hok
  exact absurd (show f.writers.calls.length < m from hok) (by omega)

end Stalled

end Failing

/-- **A throwing leader poisons the queue, and nothing else does.** The queue is healthy in every
    state of a run exactly if no exception leaves `DB::write` in the run. -/
theorem healthy_iff {db : DB} {evs : List FailEvent} {f : Failing}
    (hrun : (Failing.start db).run evs = some f) :
    (∀ past rest g, evs = past ++ rest → (Failing.start db).run past = some g → g.Healthy) ↔
      ∀ ev ∈ evs, ev.isFail = false := by
  have hiff : _ ↔ Steps.Meets Failing.step (fun _ ev => ev.isFail = false) (Failing.start db) evs :=
    Steps.run_invariant_iff (fun f h => h.healthy) (fun f ev f' h => h.step)
      (fun f ev f' h hstep hhealthy => ?_) (Failing.unfailed_start db) hrun
  · exact hiff.trans ⟨fun h => h.forall_mem hrun, Steps.Meets.of_mem⟩
  · cases ev with
    | fail id left => exact absurd hhealthy.alive (h.fail hstep).not_alive
    | run ev => rfl
    | reuse id op => rfl

theorem healthy_iff_pair : ∃ f, (Failing.start (DB.create {})).run (pairRun.map .run) = some f ∧
    f.writers.queue = [] ∧ f.Healthy := by
  have h : (((Writers.start (DB.create {})).run pairRun).map Writers.queue) = some [] := by
    decide +kernel
  obtain ⟨w, hw, hqueue⟩ := Option.map_eq_some_iff.1 h
  have hrun := Failing.run_writers (f := Failing.start (DB.create {})) rfl hw
  have hclean : ∀ ev ∈ pairRun.map FailEvent.run, ev.isFail = false := by
    intro ev hev
    obtain ⟨wev, -, rfl⟩ := List.mem_map.1 hev
    rfl
  exact ⟨_, hrun, hqueue, (healthy_iff hrun).2 hclean _ [] _ (List.append_nil _).symm hrun⟩

/-- The leader of the batch of two throws in `append_batch`, before a byte is written. -/
def throwRun : List FailEvent :=
  pairLeads.map .run ++ [.fail 1 ((DB.create {}).appendApply [(putByte 1 1).record 1] [])]

/-- The leader is gone and still in the queue, its follower is neither done nor failed, and no
    later call can return. -/
theorem throwRun_poisons : ∃ f, (Failing.start (DB.create {})).run throwRun = some f ∧
    ¬ f.Alive ∧ ¬ f.Reported ∧ ¬ f.Serves := by
  have h : ((Failing.start (DB.create {})).run throwRun).any (fun f => decide
      (f.thrown = [(1, [1, 2])] ∧ f.writers.calls.map Call.done = [true, false, false])) = true := by
    decide +kernel
  obtain ⟨f, hf, h⟩ := Option.any_eq_true _ _ |>.1 h
  obtain ⟨hthrown, hdone⟩ := of_decide_eq_true h
  -- the state before the exception
  obtain ⟨f₀, hf₀, hfail⟩ := Option.bind_eq_some_iff.1 (Steps.run_append.symm.trans hf)
  have hclean : f₀.Unfailed (DB.create {}).nextSeq :=
    @Steps.run_invariant _ _ Failing.step (fun _ ev => ev.isFail = false) _ _ _ _
      (fun _ _ _ h hev hstep => h.step hstep hev) (Failing.unfailed_start _)
      (Steps.Meets.of_mem fun ev hev => by
        obtain ⟨wev, -, rfl⟩ := List.mem_map.1 hev
        rfl) hf₀
  obtain ⟨f₁, hstep, hlast⟩ := Option.bind_eq_some_iff.1 hfail
  obtain rfl := Option.some.inj hlast
  have hstalled := hclean.fail hstep
  refine ⟨f₁, hf, hstalled.not_alive, fun hreported => ?_, hstalled.not_serves⟩
  rcases hreported (1, [1, 2]) (by simp [hthrown]) 2 (by simp) with ⟨c, hc, hd⟩ | hthrew
  · have h2 : (f₁.writers.calls.map Call.done)[2]? = some c.done := by
      rw [List.getElem?_map, hc, Option.map_some]
    simp [hdone, hd] at h2
  · simp [hthrown] at hthrew

end Keystone
