/-
  Waiting on `write_cv_`.

  A call of `write` sleeps on `write_cv_` until a leader has served it or it is at the front of
  `write_queue_`; the leader notifies all when it leaves. The model of the protocol lets a call
  go on as soon as it may. Here the threads that sleep are explicit, and wake-ups for no reason.
  `write_cv_exact`: no call sleeps through its condition, so every step of the protocol can be
  taken at once by a call that is awake, and without new calls all calls return. No call throws
  here; what an exception does is in `FailingLeader`.
  `write_bypass`: however many calls are made, a call is served at the latest by the second
  batch that ends after it was queued.
-/
import Keystone.FailingLeader
import Keystone.Lib.Monitor

namespace Keystone

open Monitor

/-! ## The machine -/

/-- The predicate of the wait in the call `i`. -/
def Writers.Served (i : Nat) (w : Writers) : Prop :=
  (w.calls[i]?).any Call.done = true ∨ w.queue.head? = some i

instance (i : Nat) (w : Writers) : Decidable (w.Served i) := inferInstanceAs (Decidable (_ ∨ _))

/-- The writers, and the calls asleep in `write_cv_.wait`. -/
structure WriteThreads where
  writers : Writers
  asleep : Finset Nat := ∅

/-- A section of the protocol; a wait that finds its predicate false; a wake-up for no reason. -/
inductive ThreadEvent where
  | write (ev : WriteEvent)
  | resume (i : Nat)
  | spurious (i : Nat)

/-- What the step notifies. -/
def WriteEvent.signal : WriteEvent → Signal
  | .finish _ => .all
  | _ => .none

/-- The calls asleep after the step: a new one evaluates its predicate behind `push_back`. -/
def Writers.fallAsleep (w' : Writers) (asleep : Finset Nat) : WriteEvent → Finset Nat
  | .call _ =>
    if w'.Served (w'.calls.length - 1) then asleep else insert (w'.calls.length - 1) asleep
  | _ => asleep

def WriteThreads.step (t : WriteThreads) : ThreadEvent → Option WriteThreads
  | .write ev =>
    if ev.caller.all (· ∉ t.asleep) then
      (t.writers.step ev).bind fun w =>
        (notify t.asleep none ev.signal).map fun asleep => ⟨w, w.fallAsleep asleep ev⟩
    else none
  | .resume i =>
    if i ∉ t.asleep ∧ (t.writers.calls[i]?).any (·.pc = .waiting) ∧ ¬ t.writers.Served i then
      some { t with asleep := insert i t.asleep }
    else none
  | .spurious i => if i ∈ t.asleep then some { t with asleep := t.asleep.erase i } else none

/-- The steps of the calls that were made, apart from wake-ups for no reason. -/
def ThreadEvent.ofCalls : ThreadEvent → Bool
  | .write ev => ev.caller.isSome
  | .resume _ => true
  | .spurious _ => false

/-- Every call has returned. -/
def Writers.AllReturned (w : Writers) : Prop :=
  ∀ c ∈ w.calls, c.pc = .returned

/-! ## Who may go on -/

namespace Staged

variable {nextSeq : UInt64} {w w' : Writers} {m l a i : Nat}

/-- The predicate holds up to the front of the queue. -/
theorem served_iff (h : Staged nextSeq w m l a) (hi : i < w.calls.length) :
    w.Served i ↔ i ≤ m := by
  have hdone := (h.calls i _ (List.getElem?_eq_getElem hi)).done
  have hhead : w.queue.head? = some i ↔ m = i := by
    rw [h.queue, List.head?_range']
    split
    · simp only [reduceCtorEq, false_iff]
      omega
    · exact Option.some_inj
  rw [Writers.Served, hhead, List.getElem?_eq_getElem hi, Option.any_some, hdone]
  omega

/-- A call that waits in vain has its predicate false, and `front()` is there to compare with. -/
theorem queue_ne_nil (h : Staged nextSeq w m l a) {c : Call} (hc : w.calls[i]? = some c)
    (hdone : c.done = false) : w.queue ≠ [] := by
  have hi := (List.getElem?_eq_some_iff.1 hc).1
  have hm : ¬ i < m := fun hlt => by
    have := (h.calls i c hc).done.2 hlt
    simp [hdone] at this
  rw [h.queue]
  intro hnil
  have := List.range'_eq_nil_iff.1 hnil
  omega

/-- Who takes a step is served or at the front. -/
theorem caller_served (h : Staged nextSeq w m l a) {ev : WriteEvent} (hstep : w.step ev = some w')
    (hi : ev.caller = some i) : i < w.calls.length ∧ w.Served i := by
  have hlt : ∀ {c : Call}, w.calls[i]? = some c → i < w.calls.length := fun hc =>
    (List.getElem?_eq_some_iff.1 hc).1
  cases ev with
  | call op => simp [WriteEvent.caller] at hi
  | engine ev => simp [WriteEvent.caller] at hi
  | lead id =>
    obtain rfl := Option.some.inj hi
    obtain ⟨c, hc, -, -, hhead, -⟩ := Writers.lead_inv hstep
    exact ⟨hlt hc, Or.inr hhead⟩
  | apply id coins =>
    obtain rfl := Option.some.inj hi
    obtain ⟨c, batch, hc, hpc, -⟩ := Writers.apply_inv hstep
    have hm := (h.leads ⟨c, hc, Or.inl hpc⟩).1
    exact ⟨hlt hc, (h.served_iff (hlt hc)).2 hm.le⟩
  | finish id =>
    obtain rfl := Option.some.inj hi
    obtain ⟨c, batch, hc, hpc, -⟩ := Writers.finish_inv hstep
    have hm := (h.leads ⟨c, hc, Or.inr hpc⟩).1
    exact ⟨hlt hc, (h.served_iff (hlt hc)).2 hm.le⟩
  | wake id =>
    obtain rfl := Option.some.inj hi
    obtain ⟨c, hc, -, hdone, -⟩ := Writers.wake_inv hstep
    exact ⟨hlt hc, Or.inl (by rw [hc]; exact hdone)⟩

/-- A step that does not end a batch leaves the front where it is. -/
theorem quiet (h : Staged nextSeq w m l a) {ev : WriteEvent} (hstep : w.step ev = some w')
    (hsig : ev.signal = .none) : ∃ l' a', Staged nextSeq w' m l' a' := by
  cases ev with
  | call op =>
    obtain ⟨l', a', h', -⟩ := h.call op
    exact ⟨l', a', Option.some.inj hstep ▸ h'⟩
  | lead id => exact ⟨_, _, h.lead hstep⟩
  | apply id coins => exact ⟨_, _, h.apply hstep⟩
  | finish id => simp [WriteEvent.signal] at hsig
  | wake id => exact ⟨_, _, h.wake hstep⟩
  | engine ev => exact ⟨_, _, h.engine hstep⟩

end Staged

/-- The call at the front can lead, write its batch or finish. -/
theorem Staged.front_steps {nextSeq : UInt64} {w : Writers} {m l a : Nat}
    (h : Staged nextSeq w m l a) (hm : m < w.calls.length) :
    ∃ ev : WriteEvent, ev.caller.isSome = true ∧ (w.step ev).isSome = true := by
  obtain ⟨⟨op, seq, done, pc⟩, hc⟩ : ∃ c, w.calls[m]? = some c := ⟨_, List.getElem?_eq_getElem hm⟩
  have hok := h.calls m _ hc
  cases pc with
  | waiting =>
    have hdone : done = false := Bool.eq_false_iff.2 fun ht => lt_irrefl m (hok.done.1 ht)
    have hhead : w.queue.head? = some m := by
      rw [h.queue, List.head?_range', if_neg (by omega)]
    exact ⟨.lead m, rfl, by simp [Writers.step, Writers.lead, hc, hdone, hhead]⟩
  | appending batch => exact ⟨.apply m [], rfl, by simp [Writers.step, Writers.apply, hc]⟩
  | finishing batch => exact ⟨.finish m, rfl, by simp [Writers.step, Writers.finish, hc]⟩
  | returned => exact absurd hok.pc (lt_irrefl m)

/-- As long as a call has not returned, one of the calls can take a step. -/
theorem Staged.calls_step {nextSeq : UInt64} {w : Writers} {m l a : Nat}
    (h : Staged nextSeq w m l a) (hret : ¬ w.AllReturned) :
    ∃ ev : WriteEvent, ev.caller.isSome = true ∧ (w.step ev).isSome = true := by
  simp only [Writers.AllReturned, not_forall] at hret
  obtain ⟨c, hmem, hpc⟩ := hret
  obtain ⟨i, hi, rfl⟩ := List.getElem_of_mem hmem
  have hc := List.getElem?_eq_getElem hi
  by_cases hm : m ≤ i
  · exact h.front_steps (hm.trans_lt hi)
  · -- a follower that was served
    have hok := h.calls i _ hc
    have hwait : w.calls[i].pc = .waiting := by
      have hpcok := hok.pc
      cases hp : w.calls[i].pc with
      | waiting => rfl
      | appending batch => exact absurd (hp ▸ hpcok).1 (by omega)
      | finishing batch => exact absurd (hp ▸ hpcok).1 (by omega)
      | returned => exact absurd hp hpc
    exact ⟨.wake i, rfl, by simp [Writers.step, Writers.wake, hc, hwait, hok.done.2 (by omega)]⟩

/-! ## How far the calls are -/

/-- How many sections a call has before it, at most. -/
def Pc.left : Pc → Nat
  | .waiting => 3
  | .appending _ => 2
  | .finishing _ => 1
  | .returned => 0

def Writers.left (w : Writers) : Nat := (w.calls.map fun c => c.pc.left).sum

theorem left_setPc {i : Nat} {calls : List Call} {c : Call} {pc : Pc} (hc : calls[i]? = some c)
    (hlt : pc.left < c.pc.left) :
    ((setPc i pc calls).map fun c => c.pc.left).sum < (calls.map fun c => c.pc.left).sum := by
  induction calls generalizing i with
  | nil => simp at hc
  | cons d calls ih =>
    cases i with
    | zero =>
      obtain rfl : d = c := by simpa using hc
      simpa [setPc] using hlt
    | succ i =>
      have h := ih (i := i) (by simpa using hc)
      simpa [setPc] using h

/-- Numbering a batch and marking it done change no program counter. -/
theorem pcs_modify {f : Call → Call} (hf : ∀ c, (f c).pc = c.pc) (i : Nat) (calls : List Call) :
    (calls.modify i f).map Call.pc = calls.map Call.pc := by
  refine List.ext_getElem? fun j => ?_
  rw [List.getElem?_map, List.getElem?_modify, List.getElem?_map, Option.map_eq_map, Option.map_map]
  congr 1
  funext c
  simp only [Function.comp]
  split
  · exact hf c
  · rfl

theorem pcs_assignSeqs (nextSeq : UInt64) (batch : List Nat) (calls : List Call) :
    (assignSeqs nextSeq batch calls).map Call.pc = calls.map Call.pc := by
  induction batch generalizing nextSeq calls with
  | nil => rfl
  | cons id batch ih =>
    rw [assignSeqs, ih]
    exact pcs_modify (f := fun c => { c with seq := nextSeq }) (fun _ => rfl) id calls

theorem pcs_markDone (batch : List Nat) (calls : List Call) :
    (markDone batch calls).map Call.pc = calls.map Call.pc := by
  induction batch generalizing calls with
  | nil => rfl
  | cons id batch ih =>
    exact (ih _).trans
      (pcs_modify (f := fun c => { c with done := true }) (fun _ => rfl) id calls)

/-- A section changes one counter, of the call that takes it. -/
theorem left_moved {i : Nat} {calls calls' : List Call} {c : Call} {pc : Pc}
    (hpcs : calls'.map Call.pc = calls.map Call.pc) (hc : calls[i]? = some c)
    (hlt : pc.left < c.pc.left) :
    ((setPc i pc calls').map fun c => c.pc.left).sum < (calls.map fun c => c.pc.left).sum := by
  have hget : (calls'[i]?).map Call.pc = some c.pc := by
    rw [← List.getElem?_map, hpcs, List.getElem?_map, hc, Option.map_some]
  obtain ⟨c', hc', hpc⟩ := Option.map_eq_some_iff.1 hget
  have h := left_setPc hc' (hpc ▸ hlt)
  have hsum : calls'.map (fun c => c.pc.left) = calls.map fun c => c.pc.left := by
    have h := congrArg (List.map Pc.left) hpcs
    rwa [List.map_map, List.map_map] at h
  rwa [hsum] at h

/-- Every section of a call brings the calls closer to their returns. -/
theorem Writers.left_lt {w w' : Writers} {ev : WriteEvent} (h : w.step ev = some w')
    (hev : ev.caller.isSome = true) : w'.left < w.left := by
  cases ev with
  | call op => simp [WriteEvent.caller] at hev
  | engine ev => simp [WriteEvent.caller] at hev
  | lead id =>
    obtain ⟨c, hc, hpc, -, -, rfl⟩ := Writers.lead_inv h
    exact left_moved (pcs_assignSeqs _ _ _) hc (by simp [hpc, Pc.left])
  | apply id coins =>
    obtain ⟨c, batch, hc, hpc, rfl⟩ := Writers.apply_inv h
    exact left_moved rfl hc (by simp [hpc, Pc.left])
  | finish id =>
    obtain ⟨c, batch, hc, hpc, rfl⟩ := Writers.finish_inv h
    exact left_moved (pcs_markDone _ _) hc (by simp [hpc, Pc.left])
  | wake id =>
    obtain ⟨c, hc, hpc, -, rfl⟩ := Writers.wake_inv h
    exact left_moved rfl hc (by simp [hpc, Pc.left])

/-- A step of the calls is a section, or one more of them is asleep. -/
def WriteThreads.left (t : WriteThreads) : Nat :=
  t.writers.left * (t.writers.calls.length + 1) + (t.writers.calls.length - t.asleep.card)

/-! ## The invariant -/

/-- Nobody sleeps through its predicate. -/
structure WriteThreads.Awake (nextSeq : UInt64) (t : WriteThreads) : Prop where
  staged : ∃ m l a, Staged nextSeq t.writers m l a
  silent : Silent Writers.Served t.writers t.asleep
  called : ∀ i ∈ t.asleep, i < t.writers.calls.length

namespace WriteThreads.Awake

variable {nextSeq : UInt64} {t t' : WriteThreads} {w : Writers} {ev : WriteEvent}

/-- The threads asleep behind a section. -/
theorem notified (h : t.Awake nextSeq) (hstep : t.writers.step ev = some w) {asleep : Finset Nat}
    (hn : notify t.asleep none ev.signal = some asleep) : (⟨w, asleep⟩ : WriteThreads).Awake nextSeq := by
  obtain ⟨m, l, a, hs⟩ := h.staged
  obtain ⟨m', l', a', hs', -⟩ := hs.step hstep
  have hlen := Writers.length_step hstep
  refine ⟨⟨m', l', a', hs'⟩, ?_, fun i hi => ?_⟩
  · cases hsig : ev.signal with
    | none =>
      rw [hsig] at hn
      obtain rfl := Option.some.inj hn
      obtain ⟨l₁, a₁, h₁⟩ := hs.quiet hstep hsig
      refine h.silent.quiet fun i hi hc => ?_
      have hi := h.called i hi
      exact (hs.served_iff hi).2 ((h₁.served_iff (by omega)).1 hc)
    | one => cases ev <;> simp [WriteEvent.signal] at hsig
    | all =>
      rw [hsig] at hn
      exact silent_all hn
  · have hi := h.called i (notify_subset hn hi)
    show i < w.calls.length
    omega

/-- A call finds its predicate false. -/
theorem sleep (h : t.Awake nextSeq) {i : Nat} (hi : i < t.writers.calls.length)
    (hserved : ¬ t.writers.Served i) :
    (⟨t.writers, insert i t.asleep⟩ : WriteThreads).Awake nextSeq := by
  refine ⟨h.staged, h.silent.insert hserved, fun j hj => ?_⟩
  rcases Finset.mem_insert.1 hj with rfl | hj
  · exact hi
  · exact h.called j hj

theorem write (h : t.Awake nextSeq) (hstep : t.step (.write ev) = some t') :
    t'.Awake nextSeq ∧ t.writers.step ev = some t'.writers := by
  simp only [WriteThreads.step] at hstep
  split at hstep
  · obtain ⟨w, hw, hstep⟩ := Option.bind_eq_some_iff.1 hstep
    obtain ⟨asleep, hn, rfl⟩ := Option.map_eq_some_iff.1 hstep
    have h' := h.notified hw hn
    refine ⟨?_, hw⟩
    cases ev with
    | call op =>
      simp only [Writers.fallAsleep]
      split
      · exact h'
      · rename_i hserved
        refine h'.sleep ?_ hserved
        have hlen : w.calls.length = t.writers.calls.length + 1 := Writers.length_step hw
        show w.calls.length - 1 < w.calls.length
        omega
    | _ => exact h'
  · exact nomatch hstep

/-- **One step.** -/
theorem step (h : t.Awake nextSeq) {e : ThreadEvent} (hstep : t.step e = some t') :
    t'.Awake nextSeq := by
  cases e with
  | write ev => exact (h.write hstep).1
  | resume i =>
    simp only [WriteThreads.step] at hstep
    split at hstep
    · rename_i hc
      obtain rfl := Option.some.inj hstep
      obtain ⟨c, hget, -⟩ := (Option.any_eq_true _ _).1 hc.2.1
      exact h.sleep (List.getElem?_eq_some_iff.1 hget).1 hc.2.2
    · exact nomatch hstep
  | spurious i =>
    simp only [WriteThreads.step] at hstep
    split at hstep
    · obtain rfl := Option.some.inj hstep
      have hsub := Finset.erase_subset i t.asleep
      exact ⟨h.staged, h.silent.mono hsub, fun j hj => h.called j (hsub hj)⟩
    · exact nomatch hstep

/-- Every step of the protocol can be taken at once. -/
theorem enabled (h : t.Awake nextSeq) (hstep : t.writers.step ev = some w) :
    ∃ t', t.step (.write ev) = some t' ∧ t'.writers = w := by
  obtain ⟨m, l, a, hs⟩ := h.staged
  have hawake : ev.caller.all (· ∉ t.asleep) = true := by
    rw [Option.all_eq_true]
    intro i hi
    exact decide_eq_true fun hmem => h.silent i hmem (hs.caller_served hstep hi).2
  have hnotify : ∃ asleep, notify t.asleep none ev.signal = some asleep := by
    cases ev <;> exact ⟨_, rfl⟩
  obtain ⟨asleep, hn⟩ := hnotify
  refine ⟨⟨w, w.fallAsleep asleep ev⟩, ?_, rfl⟩
  rw [WriteThreads.step, if_pos hawake, hstep, Option.bind_some, hn, Option.map_some]

theorem card_le (h : t.Awake nextSeq) : t.asleep.card ≤ t.writers.calls.length := by
  have hsub : t.asleep ⊆ Finset.range t.writers.calls.length := fun i hi =>
    Finset.mem_range.2 (h.called i hi)
  simpa using Finset.card_le_card hsub

theorem left_lt (h : t.Awake nextSeq) {e : ThreadEvent} (he : e.ofCalls = true)
    (hstep : t.step e = some t') : t'.left < t.left := by
  cases e with
  | write ev =>
    have hw := (h.write hstep).2
    have hlt := Writers.left_lt hw he
    have hlen : t'.writers.calls.length = t.writers.calls.length := by
      have hlen := Writers.length_step hw
      cases ev <;> first | exact hlen | simp [ThreadEvent.ofCalls, WriteEvent.caller] at he
    have hmul := Nat.mul_le_mul_right (t.writers.calls.length + 1) hlt
    rw [WriteThreads.left, WriteThreads.left, hlen]
    rw [Nat.succ_mul] at hmul
    omega
  | resume i =>
    have h' := (h.step hstep).card_le
    simp only [WriteThreads.step] at hstep
    split at hstep
    · rename_i hc
      obtain rfl := Option.some.inj hstep
      simp only [WriteThreads.left, Finset.card_insert_of_notMem hc.1] at h' ⊢
      omega
    · exact nomatch hstep
  | spurious i => exact nomatch he

/-- **All calls return.** -/
theorem inevitable (h : t.Awake nextSeq) : Steps.Inevitable WriteThreads.step
    (fun e => e.ofCalls = true) (fun t => t.writers.AllReturned) t := by
  by_cases hret : t.writers.AllReturned
  · exact .here hret
  refine Steps.inevitable_of_measure (I := fun t => t.Awake nextSeq ∧ ¬ t.writers.AllReturned)
    WriteThreads.left (fun t ht => ?_) (fun t e t' ht he hstep => ?_) ⟨h, hret⟩
  · obtain ⟨m, l, a, hs⟩ := ht.1.staged
    obtain ⟨ev, hev, hsome⟩ := hs.calls_step ht.2
    obtain ⟨w, hw⟩ := Option.isSome_iff_exists.1 hsome
    obtain ⟨t', ht', -⟩ := ht.1.enabled hw
    exact ⟨.write ev, t', hev, ht'⟩
  · by_cases hret' : t'.writers.AllReturned
    · exact Or.inl hret'
    · exact Or.inr ⟨⟨ht.1.step hstep, hret'⟩, ht.1.left_lt he hstep⟩

end WriteThreads.Awake

/-- A step of the threads is a step of the protocol, or none. -/
theorem WriteThreads.step_writers {t t' : WriteThreads} {e : ThreadEvent} (h : t.step e = some t') :
    t'.writers = t.writers ∨ ∃ ev, t.writers.step ev = some t'.writers := by
  cases e with
  | write ev =>
    simp only [WriteThreads.step] at h
    split at h
    · obtain ⟨w, hw, h⟩ := Option.bind_eq_some_iff.1 h
      obtain ⟨asleep, -, rfl⟩ := Option.map_eq_some_iff.1 h
      exact Or.inr ⟨ev, hw⟩
    · exact nomatch h
  | _ =>
    simp only [WriteThreads.step] at h
    split at h
    · exact Or.inl (Option.some.inj h ▸ rfl)
    · exact nomatch h

/-- **No wake-up is lost on `write_cv_`.** In every state of every run of the calls, with
    wake-ups for no reason: the state is one of the protocol; nobody sleeps who is served or at
    the front, and the queue that a wait looks at is not empty; every step of the protocol can be
    taken at once by a call that is awake; and whatever the calls do, if no more are made, all
    return. -/
theorem write_cv_exact {db : DB} {evs : List ThreadEvent} {t : WriteThreads}
    (hrun : Steps.run WriteThreads.step ⟨.start db, ∅⟩ evs = some t) :
    (∃ evs', (Writers.start db).run evs' = some t.writers) ∧
    (∀ i ∈ t.asleep, ¬ t.writers.Served i) ∧
    (∀ c ∈ t.writers.calls, c.done = false → t.writers.queue ≠ []) ∧
    (∀ ev w, t.writers.step ev = some w → ∃ t', t.step (.write ev) = some t' ∧ t'.writers = w) ∧
    Steps.Inevitable WriteThreads.step (fun e => e.ofCalls = true)
      (fun t => t.writers.AllReturned) t := by
  have hstart : (⟨.start db, ∅⟩ : WriteThreads).Awake db.nextSeq :=
    ⟨⟨0, 0, 0, staged_start db⟩, by simp [Silent], by simp⟩
  have h : t.Awake db.nextSeq := Steps.run_invariant (fun _ _ _ h _ hstep =>
    WriteThreads.Awake.step h hstep) hstart (Steps.Meets.of_forall fun _ _ => trivial) hrun
  have hevs : ∃ evs', (Writers.start db).run evs' = some t.writers :=
    Steps.run_projects WriteThreads.writers (fun _ _ _ => WriteThreads.step_writers) hrun
  obtain ⟨m, l, a, hs⟩ := h.staged
  refine ⟨hevs, h.silent, fun c hc hdone => ?_, fun ev w => h.enabled, h.inevitable⟩
  obtain ⟨i, hi, rfl⟩ := List.getElem_of_mem hc
  exact hs.queue_ne_nil (List.getElem?_eq_getElem hi) hdone

/-- The second of two calls is asleep behind the first, which leads. -/
def sleepingSecond : List ThreadEvent :=
  [.write (.call (putByte 1 1)), .write (.call (putByte 2 1))]

theorem write_cv_exact_second : ∃ t, Steps.run WriteThreads.step ⟨.start (DB.create {}), ∅⟩
    sleepingSecond = some t ∧ t.asleep = {1} ∧ ¬ t.writers.Served 1 ∧
    Steps.Inevitable WriteThreads.step (fun e => e.ofCalls = true)
      (fun t => t.writers.AllReturned) t := by
  have h : ((Steps.run WriteThreads.step ⟨.start (DB.create {}), ∅⟩ sleepingSecond).any fun t =>
      t.asleep = {1}) = true := by decide +kernel
  obtain ⟨t, hrun, h⟩ := (Option.any_eq_true _ _).1 h
  have hasleep := of_decide_eq_true h
  have hexact := write_cv_exact hrun
  exact ⟨t, hrun, hasleep, hexact.2.1 1 (by simp [hasleep]), hexact.2.2.2.2⟩

/-! ## How long a call waits -/

/-- A batch ends that the call `i` does not belong to, or its own. -/
def Writers.passes (i : Nat) (w : Writers) (ev : WriteEvent) : Bool :=
  (ev matches .finish _) && !(w.calls[i]?).any Call.done

/-- The batches that can end before the call `i` is served: the one in progress, if the call is
    not in it, and the next. -/
def Writers.Awaits (nextSeq : UInt64) (i : Nat) (w : Writers) (n : Nat) : Prop :=
  i < w.calls.length ∧ ∃ m l a, Staged nextSeq w m l a ∧
    (i < m ∨ (i < a ∨ a = m) ∧ 1 ≤ n ∨ 2 ≤ n)

theorem Writers.Awaits.step {nextSeq : UInt64} {i n : Nat} {w w' : Writers} {ev : WriteEvent}
    (h : w.Awaits nextSeq i n) (hstep : w.step ev = some w') :
    ∃ n', w'.Awaits nextSeq i n' ∧ n' + (if w.passes i ev then 1 else 0) ≤ n := by
  obtain ⟨hi, m, l, a, hs, hn⟩ := h
  have hlen := Writers.length_step hstep
  have hi' : i < w'.calls.length := by omega
  cases ev with
  | call op =>
    obtain rfl := Option.some.inj hstep
    rcases w.call_cases op with he | hlead
    · exact ⟨n, ⟨hi', m, l, a, he ▸ hs.enqueue op, hn⟩, le_rfl⟩
    · obtain ⟨-, hlm, hla, -⟩ := (hs.enqueue op).lead_front hlead
      rw [Writers.length_lead hlead] at hi'
      exact ⟨n, ⟨by rwa [Writers.length_lead hlead], _, _, _, (hs.enqueue op).lead hlead, by omega⟩,
        le_rfl⟩
  | lead id =>
    obtain ⟨-, hlm, hla, -⟩ := hs.lead_front hstep
    exact ⟨n, ⟨hi', _, _, _, hs.lead hstep, by omega⟩, le_rfl⟩
  | apply id coins => exact ⟨n, ⟨hi', _, _, _, hs.apply hstep, hn⟩, le_rfl⟩
  | finish id =>
    obtain ⟨c, batch, hc, hpc, -⟩ := Writers.finish_inv hstep
    have hpcok := (hs.calls id c hc).pc
    rw [hpc] at hpcok
    have hma : m < a := hpcok.2.1
    have hdone := (hs.calls i _ (List.getElem?_eq_getElem hi)).done
    by_cases him : i < m
    · refine ⟨n, ⟨hi', _, _, _, hs.finish hstep, Or.inl (him.trans hma)⟩, ?_⟩
      simp [Writers.passes, List.getElem?_eq_getElem hi, hdone.2 him]
    · refine ⟨n - 1, ⟨hi', _, _, _, hs.finish hstep, by omega⟩, ?_⟩
      split <;> omega
  | wake id => exact ⟨n, ⟨hi', _, _, _, hs.wake hstep, hn⟩, le_rfl⟩
  | engine ev => exact ⟨n, ⟨hi', _, _, _, hs.engine hstep, hn⟩, le_rfl⟩

/-- **No call is overtaken for long.** From any state of the protocol, whatever comes next and
    however many calls are made: at most two batches end before a queued call is served. -/
theorem write_bypass {db : DB} {evs : List WriteEvent} {w : Writers}
    (hrun : (Writers.start db).run evs = some w) {i : Nat} (hi : i < w.calls.length)
    (evs' : List WriteEvent) : Steps.count Writers.step (Writers.passes i) w evs' ≤ 2 := by
  obtain ⟨m, l, a, hs⟩ := (staged_start db).run hrun
  exact Steps.count_le_of (fun _ _ _ _ h _ hstep => Writers.Awaits.step h hstep)
    ⟨hi, m, l, a, hs, Or.inr (Or.inr le_rfl)⟩ (Steps.Meets.of_forall (P := fun _ _ => True)
      fun _ _ => trivial)

/-- A call that comes too late for the batch of the first one. -/
def lateSecond : List WriteEvent :=
  [.call (putByte 1 1), .call (putByte 2 1)]

theorem write_bypass_late : ∃ w, (Writers.start (DB.create {})).run lateSecond = some w ∧
    Steps.count Writers.step (Writers.passes 1) w
      [.apply 0 [], .finish 0, .lead 1, .apply 1 [], .finish 1] = 2 ∧
    ∀ evs', Steps.count Writers.step (Writers.passes 1) w evs' ≤ 2 := by
  have h : ((Writers.start (DB.create {})).run lateSecond).any (fun w =>
      decide (1 < w.calls.length) && decide (Steps.count Writers.step (Writers.passes 1) w
        [.apply 0 [], .finish 0, .lead 1, .apply 1 [], .finish 1] = 2)) = true := by decide +kernel
  obtain ⟨w, hrun, h⟩ := (Option.any_eq_true _ _).1 h
  rw [Bool.and_eq_true, decide_eq_true_eq, decide_eq_true_eq] at h
  exact ⟨w, hrun, h.2, write_bypass hrun h.1⟩

end Keystone
