/-
  The store is linearizable.

  Any number of `put`, `del`, `get` and `scan` calls run at the same time, with flushes, rounds
  and the deletion of files in between. A write takes effect when its leader applies the batch, a
  read in its section under `mu_`; the sequential object is a map. What a call returns, at
  whatever later time, is what the map returns in that order (`clients_linearizable`).

  The steps have to meet `ExactOk`, which leaves out what the engine gets wrong. Snapshots are
  taken and released at will, but reads are those of the present.
-/
import Keystone.Client
import Keystone.Lib.Linearizable
import Keystone.Readers

namespace Keystone

open Linearizable

/-! ## The sequential object -/

/-- A map from keys to values. -/
abbrev Contents := Bytes → Option Bytes

/-- A write, on the map. -/
def Contents.write (s : Contents) (op : Op) : Contents :=
  fun k => if op.key = k then op.result else s k

/-- The calls of a client. -/
inductive Operation where
  | write (op : Op)
  | read (q : Query)

/-- A scan lists the pairs of its range in increasing key order. -/
structure Contents.Lists (s : Contents) (start last : Bytes) (ps : List (Bytes × Bytes)) : Prop where
  increasing : ps.Pairwise fun a b => a.1 < b.1
  mem : ∀ k v, (k, v) ∈ ps ↔ start ≤ k ∧ k ≤ last ∧ s k = some v

/-- The sequential store. No call of it throws. -/
def mapSpec (s : Contents) : Operation → Response → Contents → Prop
  | .write op, .done, s' => s' = s.write op
  | .read (.get key), .value v, s' => v = s key ∧ s' = s
  | .read (.scan start last), .pairs ps, s' => s.Lists start last ps ∧ s' = s
  | _, _, _ => False

/-- A range has one list of pairs. -/
theorem Contents.Lists.unique {s : Contents} {start last : Bytes} {ps qs : List (Bytes × Bytes)}
    (hp : s.Lists start last ps) (hq : s.Lists start last qs) : ps = qs := by
  have hnodup : ∀ {l : List (Bytes × Bytes)}, l.Pairwise (fun a b => a.1 < b.1) → l.Nodup :=
    fun h => h.imp fun hlt he => absurd (congrArg Prod.fst he) (ne_of_lt hlt)
  have hperm : ps.Perm qs := (List.perm_ext_iff_of_nodup (hnodup hp.increasing)
    (hnodup hq.increasing)).2 fun p => (hp.mem p.1 p.2).trans (hq.mem p.1 p.2).symm
  exact hperm.eq_of_pairwise (fun a b _ _ h1 h2 => absurd h1 (lt_asymm h2)) hp.increasing
    hq.increasing

/-! ## Marks -/

/-- Writes and reads are numbered apart. -/
inductive CallId where
  | write (i : Nat)
  | read (i : Nat)
  deriving DecidableEq

/-- The marks of a run. -/
abbrev Trace := List (Mark CallId Operation Response)

/-- The batch of a leader that is about to apply it. -/
def Writers.batchOf (w : Writers) (id : Nat) : List Nat :=
  match w.calls[id]? with
  | some ⟨_, _, _, .appending batch⟩ => batch
  | _ => []

/-- What a step of the writers calls. -/
def WriteEvent.calls : WriteEvent → List Op
  | .call op => [op]
  | _ => []

/-- The calls that take effect in a step. -/
def Writers.effects (w : Writers) : WriteEvent → List Nat
  | .apply id _ => w.batchOf id
  | _ => []

/-- The calls that return in a step. -/
def WriteEvent.returns : WriteEvent → List Nat
  | .finish id => [id]
  | .wake id => [id]
  | _ => []

theorem WriteEvent.calls_cases (ev : WriteEvent) : ev.calls = [] ∨ ∃ op, ev.calls = [op] := by
  cases ev <;> simp [WriteEvent.calls]

/-- The marks of a step. A read takes effect in its section; what it will answer is settled
    there, whatever queue its merge uses. -/
def Clients.marks (c : Clients) : ClientEvent → Trace
  | .write ev =>
    (ev.calls.map fun op => .call (.write c.writers.calls.length) (.write op)) ++
      ((c.writers.effects ev).map fun i => .point (.write i) .done) ++
      ev.returns.map fun i => .ret (.write i) .done
  | .ask q => [.call (.read c.readers.length) (.read q)]
  | .take id =>
    match c.readers[id]? with
    | some (.asked q) =>
      (((q.take c.writers.store).answer plainQueue).map fun res => .point (.read id) res).toList
    | _ => []
  | .answer id pq =>
    (((c.readers[id]?).bind (Reader.answer pq)).map fun res => .ret (.read id) res).toList

/-- The marks of a run. -/
def Clients.trace : Clients → List ClientEvent → Trace
  | _, [] => []
  | c, ev :: evs => c.marks ev ++ ((c.step ev).map fun c' => c'.trace evs).getD []

/-- What the step of a client asks of the engine. -/
def StepsExact (c : Clients) : ClientEvent → Prop
  | .write ev => ∀ e ∈ c.writers.event ev, ExactOk c.writers.store e
  | _ => True

instance (c : Clients) (ev : ClientEvent) : Decidable (StepsExact c ev) :=
  match ev with
  | .write ev => inferInstanceAs (Decidable (∀ e ∈ c.writers.event ev, ExactOk c.writers.store e))
  | .ask _ | .take _ | .answer _ _ => instDecidableTrue

/-- What is visible at present. -/
def DB.contents (db : DB) : Contents := fun k => visible db.entries k uint64Max

/-! ## Writers -/

theorem getElem?_concat_eq_some {α : Type*} {l : List α} {x y : α} {i : Nat} :
    (l ++ [x])[i]? = some y ↔ l[i]? = some y ∨ (i = l.length ∧ x = y) := by
  rcases lt_trichotomy i l.length with hi | rfl | hi
  · simp [List.getElem?_append_left hi, ne_of_lt hi]
  · simp
  · simp [List.getElem?_eq_none (show (l ++ [x]).length ≤ i by simp; omega),
      List.getElem?_eq_none (le_of_lt hi), ne_of_gt hi]

theorem length_recordsOf {calls : List Call} {ids : List Nat} (h : ∀ i ∈ ids, i < calls.length) :
    (recordsOf calls ids).length = ids.length := by
  rw [recordsOf, List.length_filterMap_eq_countP, List.countP_eq_length]
  intro i hi
  rw [List.getElem?_eq_getElem (h i hi)]
  rfl

namespace Writers

variable {base : DB} {w w' : Writers} {m l a : Nat} {ev : WriteEvent}

/-- What the writes applied so far make of the map. -/
def contents (base : DB) (w : Writers) : Contents :=
  fun k => valueAfter k (base.contents k) w.applied

/-- **One step**, under the conditions of the engine alone. -/
theorem Serves.step_exact (h : w.Serves base m l a) (hok : ∀ e ∈ w.event ev, ExactOk w.store e)
    (hstep : w.step ev = some w') : ∃ m' l' a', w'.Serves base m' l' a' := by
  obtain ⟨m', l', a', hst, ⟨-, hview, happ⟩ | ⟨e, he, hr, hview, happ⟩⟩ := h.staged.view_step hstep
  · refine ⟨m', l', a', hst, hview ▸ h.exact, ?_, fun k => ?_⟩
    · exact (congrArg DB.nextSeq hview).symm ▸ h.pos
    · show visible (w'.view l' a').entries k uint64Max = _
      rw [hview, happ]
      exact h.values k
  · have hok' : ExactOk (w.view l a) e := exactOk_view (hok e he)
    have ho := h.exact.ordered
    refine ⟨m', l', a', hst, h.exact.step hok' hr hview, ?_, fun k => ?_⟩
    · have hle := nextSeq_le_step hok'.wrap hr hview
      exact le_trans h.pos hle
    · have hvis := ho.visible_step hok'.fits.tables hr hview (Or.inr rfl) k
      rw [(visible_newer (applied_order ho.seqs e) (fun x hx b hb => applied_newer ho.seqs hx hb)
        ho.unique k).2] at hvis
      rw [happ, valueAfter, List.foldl_append]
      exact hvis.trans (congrArg (fun v => valueAfter k v _) (h.values k))

theorem Serves.contents_eq (h : w.Serves base m l a) : w.store.contents = w.contents base :=
  funext h.values

/-- As many entries as calls are applied. -/
theorem length_applied (h : Staged base.nextSeq w m l a) : w.applied.length = l := by
  have hle : l ≤ w.calls.length := le_trans h.applied_le h.numbered_le
  rw [Writers.applied, List.length_map, h.inserted, length_recordsOf, List.length_range]
  exact fun i hi => lt_of_lt_of_le (List.mem_range.1 hi) hle

theorem map_modify_op {f : Call → Call} (hf : ∀ c, (f c).op = c.op) (i : Nat)
    (calls : List Call) : (calls.modify i f).map Call.op = calls.map Call.op := by
  refine List.ext_getElem? fun j => ?_
  rw [List.getElem?_map, List.getElem?_map, List.getElem?_modify, Option.map_eq_map, Option.map_map]
  congr 1
  funext c
  simp only [Function.comp]
  split
  · exact hf c
  · rfl

theorem map_setPc_op (id : Nat) (pc : Pc) (calls : List Call) :
    (setPc id pc calls).map Call.op = calls.map Call.op :=
  map_modify_op (fun _ => by rfl) id calls

theorem map_assignSeqs_op (nextSeq : UInt64) (batch : List Nat) (calls : List Call) :
    (assignSeqs nextSeq batch calls).map Call.op = calls.map Call.op := by
  induction batch generalizing nextSeq calls with
  | nil => rfl
  | cons id batch ih =>
    rw [assignSeqs, ih]
    exact map_modify_op (fun _ => by rfl) id calls

theorem map_markDone_op (batch : List Nat) (calls : List Call) :
    (markDone batch calls).map Call.op = calls.map Call.op := by
  induction batch generalizing calls with
  | nil => rfl
  | cons id batch ih => exact (ih _).trans (map_modify_op (fun _ => by rfl) id calls)

/-- What was called stays as it is; a step adds what it calls. -/
theorem ops_step (h : w.step ev = some w') :
    w'.calls.map Call.op = w.calls.map Call.op ++ ev.calls := by
  cases ev with
  | call op =>
    obtain rfl := Option.some.inj h
    have henq : (w.enqueue op).calls.map Call.op = w.calls.map Call.op ++ [op] := List.map_append
    rcases w.call_cases op with he | hlead
    · rw [he, henq]
      rfl
    · obtain ⟨-, -, -, -, -, hw⟩ := lead_inv hlead
      rw [hw, map_setPc_op, map_assignSeqs_op, henq]
      rfl
  | lead id =>
    obtain ⟨-, -, -, -, -, rfl⟩ := lead_inv h
    rw [map_setPc_op, map_assignSeqs_op]
    exact (List.append_nil _).symm
  | apply id coins =>
    obtain ⟨-, -, -, -, rfl⟩ := apply_inv h
    rw [map_setPc_op]
    exact (List.append_nil _).symm
  | finish id =>
    obtain ⟨-, -, -, -, rfl⟩ := finish_inv h
    rw [map_setPc_op, map_markDone_op]
    exact (List.append_nil _).symm
  | wake id =>
    obtain ⟨-, -, -, -, rfl⟩ := wake_inv h
    rw [map_setPc_op]
    exact (List.append_nil _).symm
  | engine ev =>
    obtain ⟨-, -, -, rfl⟩ := engine_inv h
    exact (List.append_nil _).symm

/-- The calls that a step applies. -/
theorem Serves.applied_step (h : w.Serves base m l a) (hstep : w.step ev = some w') :
    w'.applied = w.applied ++ (recordsOf w.calls (w.effects ev)).map (fun p => p.2.entry) ∧
    (w.effects ev = [] ∨ w.effects ev = List.range' l (a - l)) := by
  cases ev with
  | apply id coins =>
    obtain ⟨⟨op, seq, done, pc⟩, batch, hc, hpc, -⟩ := apply_inv hstep
    obtain ⟨-, -, -, rfl⟩ := h.staged.apply_batch hc hpc
    obtain rfl := hpc
    have hbatch : w.effects (.apply id coins) = List.range' l (a - l) := by
      rw [effects, batchOf, hc]
    refine ⟨?_, Or.inr hbatch⟩
    rw [(h.staged.view_apply hstep).2, hbatch, view, List.map_map]
    rfl
  | call op =>
    obtain ⟨-, -, -, happ, -⟩ := h.staged.view_call op
    obtain rfl := Option.some.inj hstep
    exact ⟨happ.trans (List.append_nil _).symm, Or.inl rfl⟩
  | lead id =>
    rw [(h.staged.view_lead hstep).2]
    exact ⟨(List.append_nil _).symm, Or.inl rfl⟩
  | finish id =>
    obtain ⟨-, -, -, -, rfl⟩ := finish_inv hstep
    exact ⟨(List.append_nil _).symm, Or.inl rfl⟩
  | wake id =>
    obtain ⟨-, -, -, -, rfl⟩ := wake_inv hstep
    exact ⟨(List.append_nil _).symm, Or.inl rfl⟩
  | engine ev =>
    obtain ⟨-, -, -, rfl⟩ := engine_inv hstep
    refine ⟨?_, Or.inl rfl⟩
    rw [applied, (log_flushed w.log (w.store.flushes ev)).2.2]
    exact (List.append_nil _).symm

/-- What returns has taken effect. -/
theorem Serves.returns_lt (h : w.Serves base m l a) (hstep : w.step ev = some w') :
    ∀ i ∈ ev.returns, i < l := by
  cases ev with
  | finish id =>
    obtain ⟨c, batch, hc, hpc, -⟩ := finish_inv hstep
    have hpcok := (h.staged.calls id c hc).pc
    rw [hpc] at hpcok
    obtain ⟨rfl, hlt, rfl, -⟩ := hpcok
    exact fun i hi => List.mem_singleton.1 hi ▸ hlt
  | wake id =>
    obtain ⟨c, hc, -, hdone, -⟩ := wake_inv hstep
    have hlt := (h.staged.calls id c hc).done.1 hdone
    exact fun i hi => List.mem_singleton.1 hi ▸ lt_of_lt_of_le hlt h.staged.finished_le
  | _ => simp [WriteEvent.returns]

end Writers

/-! ## The invariant -/

/-- A batch takes effect call by call. -/
theorem pointed_batch {init s : Contents} {t : Trace} {calls : List Call} {ids : List Nat}
    (h : Pointed mapSpec init t s)
    (hcalled : ∀ i ∈ ids, ∃ c, calls[i]? = some c ∧ .call (.write i) (.write c.op) ∈ t)
    (hnew : ∀ i ∈ ids, ∀ r, .point (.write i) r ∉ t) (hnd : ids.Nodup) :
    Pointed mapSpec init (t ++ ids.map fun i => .point (.write i) .done)
      (fun k => valueAfter k (s k) ((recordsOf calls ids).map fun p => p.2.entry)) := by
  induction ids generalizing t s with
  | nil => simpa [recordsOf, valueAfter] using h
  | cons i ids ih =>
    obtain ⟨hi, hnd⟩ := List.nodup_cons.1 hnd
    obtain ⟨c, hc, hcall⟩ := hcalled i List.mem_cons_self
    have hone := h.point hcall (hnew i List.mem_cons_self)
      (show mapSpec s (.write c.op) .done (s.write c.op) from rfl)
    have hrest := ih hone (fun j hj => ?_) (fun j hj r hr => ?_) hnd
    · rw [List.map_cons, ← List.singleton_append, ← List.append_assoc]
      convert hrest using 2 with k
      have hrec : recordsOf calls (i :: ids) = (i, c.record) :: recordsOf calls ids := by
        simp [recordsOf, hc]
      rw [hrec, List.map_cons, valueAfter, List.foldl_cons, Call.record, Wal.Record.entry_key,
        Op.record_shown]
      rfl
    · obtain ⟨c', hc', hmem⟩ := hcalled j (List.mem_cons_of_mem i hj)
      exact ⟨c', hc', List.mem_append_left _ hmem⟩
    · rcases List.mem_append.1 hr with hr | hr
      · exact hnew j (List.mem_cons_of_mem i hj) r hr
      · have := List.mem_singleton.1 hr
        simp only [Mark.point.injEq, CallId.write.injEq] at this
        exact hi (this.1 ▸ hj)

theorem pointed_returns {init s : Contents} {t : Trace} {ids : List Nat}
    (h : Pointed mapSpec init t s) (hdone : ∀ i ∈ ids, .point (.write i) .done ∈ t) :
    Pointed mapSpec init (t ++ ids.map fun i => .ret (.write i) .done) s := by
  induction ids generalizing t with
  | nil => simpa using h
  | cons i ids ih =>
    have hrest := ih (h.ret (hdone i List.mem_cons_self))
      fun j hj => List.mem_append_left _ (hdone j (List.mem_cons_of_mem i hj))
    rwa [List.append_assoc, List.singleton_append] at hrest

/-- A read that is only called has not taken effect; one past its section will answer as it
    took effect. -/
def ReaderOk (t : Trace) (i : Nat) (r : Reader) : Prop :=
  (∀ q, r = .asked q → .call (.read i) (.read q) ∈ t ∧ ∀ res, .point (.read i) res ∉ t) ∧
    ∀ pq res, r.answer pq = some res → .point (.read i) res ∈ t

theorem ReaderOk.append {t ms : Trace} {i : Nat} {r : Reader} (h : ReaderOk t i r)
    (hms : ∀ res, .point (.read i) res ∉ ms) : ReaderOk (t ++ ms) i r := by
  refine ⟨fun q hq => ⟨List.mem_append_left _ (h.1 q hq).1, fun res hres => ?_⟩,
    fun pq res hres => List.mem_append_left _ (h.2 pq res hres)⟩
  exact (List.mem_append.1 hres).elim ((h.1 q hq).2 res) (hms res)

/-- The invariant of a run with the marks `t`. -/
structure Clients.Traced (base : DB) (c : Clients) (t : Trace) : Prop where
  serves : ∃ m l a, c.writers.Serves base m l a
  pointed : Pointed mapSpec base.contents t (c.writers.contents base)
  writes : ∀ i op, .call (.write i) op ∈ t ↔
    ∃ op', (c.writers.calls.map Call.op)[i]? = some op' ∧ op = .write op'
  effects : ∀ i res, .point (.write i) res ∈ t ↔ i < c.writers.applied.length ∧ res = .done
  readers : ∀ i r, c.readers[i]? = some r → ReaderOk t i r
  fresh : ∀ i, c.readers.length ≤ i →
    (∀ op, .call (.read i) op ∉ t) ∧ ∀ res, .point (.read i) res ∉ t

/-- What a read takes decides its answer, which is that of the map. -/
theorem DB.Exact.take_answer {db : DB} (h : db.Exact) (q : Query) : ∃ res,
    (∀ pq, (q.take db).answer pq = some res) ∧
      mapSpec db.contents (.read q) res db.contents := by
  cases q with
  | get key =>
    refine ⟨.value (db.contents key), fun pq => ?_, rfl, rfl⟩
    show some (Response.ofExcept .value (db.getImpl key uint64Max)) = _
    rw [DB.getImpl_eq h.ordered h.whole.live]
    rfl
  | scan start last =>
    have hlist : ∀ pq, ∃ out, db.scanImpl pq start last uint64Max = .ok out ∧
        db.contents.Lists start last out := fun pq => by
      obtain ⟨out, hout, hinc, hmem⟩ := DB.scanImpl_spec h.ordered h.whole.live pq start last uint64Max
      exact ⟨out, hout, hinc, hmem⟩
    obtain ⟨out, -, hout⟩ := hlist plainQueue
    refine ⟨.pairs out, fun pq => ?_, hout, rfl⟩
    obtain ⟨out', heq, hout'⟩ := hlist pq
    show some (Response.ofExcept .pairs (db.scanImpl pq start last uint64Max)) = _
    rw [heq, hout'.unique hout]
    rfl

namespace Clients.Traced

variable {base : DB} {c c' : Clients} {t : Trace}

theorem start (hb : base.Exact) (hidle : base.inflight = []) (hpos : 1 ≤ base.nextSeq) :
    (Clients.start base).Traced base [] where
  serves := ⟨0, 0, 0, .start hb hidle hpos⟩
  pointed := .nil
  writes := by simp [Clients.start, Writers.start]
  effects := by simp [Clients.start, Writers.start, Writers.applied, insertedIn]
  readers := by simp [Clients.start]
  fresh := by simp

theorem ask (h : c.Traced base t) (q : Query) : (c.ask q).Traced base (t ++ c.marks (.ask q)) where
  serves := h.serves
  pointed := h.pointed.call (h.fresh _ le_rfl).1
  writes i op := by simp [Clients.marks, h.writes i op, Clients.ask]
  effects i res := by simp [Clients.marks, h.effects i res, Clients.ask]
  readers i r hr := by
    rw [Clients.ask, List.getElem?_append] at hr
    split at hr
    · exact (h.readers i r hr).append (by simp [Clients.marks])
    · rename_i hi
      rw [List.getElem?_singleton] at hr
      obtain ⟨hzero, rfl⟩ : i - c.readers.length = 0 ∧ Reader.asked q = r := by simpa using hr
      obtain rfl : i = c.readers.length := by omega
      refine ⟨fun q' hq => ?_, fun pq res hres => by simp [Reader.answer] at hres⟩
      obtain rfl := Reader.asked.inj hq
      refine ⟨List.mem_append_right _ (List.mem_singleton_self _), fun res hres => ?_⟩
      simp only [Clients.marks, List.mem_append, List.mem_singleton, reduceCtorEq, or_false] at hres
      exact (h.fresh _ le_rfl).2 res hres
  fresh i hi := by
    simp only [Clients.ask, List.length_append, List.length_singleton] at hi
    have hold := h.fresh i (by omega)
    refine ⟨fun op hop => ?_, fun res hres => ?_⟩
    · simp only [Clients.marks, List.mem_append, List.mem_singleton, Mark.call.injEq,
        CallId.read.injEq] at hop
      rcases hop with hop | ⟨rfl, -⟩
      · exact hold.1 op hop
      · omega
    · simp only [Clients.marks, List.mem_append, List.mem_singleton, reduceCtorEq, or_false] at hres
      exact hold.2 res hres

/-- A step of reader `id` that changes nothing else. -/
theorem set_reader (h : c.Traced base t) {id : Nat} {r : Reader} (hid : id < c.readers.length)
    {m : Mark CallId Operation Response}
    (hpointed : Pointed mapSpec base.contents (t ++ [m]) (c.writers.contents base))
    (hm : (∃ res, m = .point (.read id) res) ∨ ∃ res, m = .ret (.read id) res)
    (hr : ReaderOk (t ++ [m]) id r) :
    ({ c with readers := c.readers.set id r } : Clients).Traced base (t ++ [m]) where
  serves := h.serves
  pointed := hpointed
  writes i op := by
    rw [← h.writes i op]
    rcases hm with ⟨res, rfl⟩ | ⟨res, rfl⟩ <;> simp
  effects i res := by
    rw [← h.effects i res]
    rcases hm with ⟨res, rfl⟩ | ⟨res, rfl⟩ <;> simp
  readers i r' hr' := by
    rw [List.getElem?_set] at hr'
    split at hr'
    · rename_i hi
      subst hi
      exact Option.some.inj hr' ▸ hr
    · rename_i hi
      refine (h.readers i r' hr').append fun res hres => hi ?_
      rcases hm with ⟨res', rfl⟩ | ⟨res', rfl⟩
      · simp only [List.mem_singleton, Mark.point.injEq, CallId.read.injEq] at hres
        exact hres.1.symm
      · simp at hres
  fresh i hi := by
    rw [List.length_set] at hi
    have hold := h.fresh i hi
    refine ⟨fun op hop => ?_, fun res hres => ?_⟩
    · rcases hm with ⟨res, rfl⟩ | ⟨res, rfl⟩ <;> simp at hop <;> exact hold.1 op hop
    · rcases hm with ⟨res', rfl⟩ | ⟨res', rfl⟩
      · simp only [List.mem_append, List.mem_singleton, Mark.point.injEq, CallId.read.injEq] at hres
        rcases hres with hres | ⟨rfl, -⟩
        · exact hold.2 res hres
        · omega
      · simp at hres
        exact hold.2 res hres

theorem take (h : c.Traced base t) {id : Nat} (hstep : c.take id = some c') :
    c'.Traced base (t ++ c.marks (.take id)) := by
  obtain ⟨q, hq, rfl⟩ := Clients.take_inv hstep
  obtain ⟨m, l, a, hs⟩ := h.serves
  obtain ⟨res, hans, hspec⟩ := hs.exact.take_answer q
  have hans : ∀ pq, (q.take c.writers.store).answer pq = some res := by
    cases q <;> exact hans
  have hspec : mapSpec (c.writers.contents base) (.read q) res (c.writers.contents base) := by
    rw [← hs.contents_eq]
    exact hspec
  obtain ⟨hcall, hnew⟩ := (h.readers id _ hq).1 q rfl
  have hmarks : c.marks (.take id) = [.point (.read id) res] := by
    simp only [Clients.marks, hq, hans plainQueue, Option.map_some, Option.toList_some]
  rw [hmarks]
  refine h.set_reader (List.getElem?_eq_some_iff.1 hq).1 (h.pointed.point hcall hnew hspec)
    (Or.inl ⟨res, rfl⟩) ⟨fun q' hq' => ?_, fun pq res' hres' => ?_⟩
  · cases q <;> simp [Query.take] at hq'
  · rw [hans pq] at hres'
    exact Option.some.inj hres' ▸ List.mem_append_right _ (List.mem_singleton_self _)

theorem answer (h : c.Traced base t) {id : Nat} {pq : SourceQueue}
    (hstep : c.answer id pq = some c') : c'.Traced base (t ++ c.marks (.answer id pq)) := by
  obtain ⟨r, res, hr, hans, rfl⟩ := Clients.answer_inv hstep
  have hmarks : c.marks (.answer id pq) = [.ret (.read id) res] := by
    simp only [Clients.marks, hr, Option.bind_some, hans, Option.map_some, Option.toList_some]
  rw [hmarks]
  refine h.set_reader (List.getElem?_eq_some_iff.1 hr).1
    (h.pointed.ret ((h.readers id r hr).2 pq res hans)) (Or.inr ⟨res, rfl⟩) ⟨fun q hq => ?_, ?_⟩
  · cases hq
  · simp [Reader.answer]

/-- The writers' part of a step: calls, effects, returns. -/
theorem pointed_write (h : c.Traced base t) {ev : WriteEvent} {w : Writers}
    (hstep : c.writers.step ev = some w) :
    Pointed mapSpec base.contents (t ++ c.marks (.write ev)) (w.contents base) := by
  obtain ⟨m, l, a, hs⟩ := h.serves
  obtain ⟨happ, heff⟩ := hs.applied_step hstep
  have hlen := Writers.length_applied hs.staged
  have hcalls : Pointed mapSpec base.contents
      (t ++ ev.calls.map fun op => .call (.write c.writers.calls.length) (.write op))
      (c.writers.contents base) := by
    rcases ev.calls_cases with he | ⟨req, he⟩
    · simpa [he] using h.pointed
    · rw [he]
      refine h.pointed.call fun op hop => ?_
      obtain ⟨req', hreq', -⟩ := (h.writes _ op).1 hop
      simp at hreq'
  have hids : ∀ i ∈ c.writers.effects ev, l ≤ i ∧ i < a := fun i hi => by
    rcases heff with he | he <;> rw [he] at hi
    · simp at hi
    · have := List.mem_range'_1.1 hi
      have := hs.staged.applied_le
      omega
  have hbatch := @pointed_batch _ _ _ c.writers.calls (c.writers.effects ev) hcalls ?_ ?_ ?_
  · have hret := @pointed_returns _ _ _ ev.returns hbatch fun i hi => ?_
    · have hcont : w.contents base = fun k => valueAfter k (c.writers.contents base k)
          ((recordsOf c.writers.calls (c.writers.effects ev)).map fun p => p.2.entry) := by
        funext k
        rw [Writers.contents, happ, valueAfter, List.foldl_append]
        rfl
      rw [hcont, Clients.marks, ← List.append_assoc, ← List.append_assoc]
      exact hret
    · refine List.mem_append_left _ (List.mem_append_left _ ((h.effects i .done).2 ⟨?_, rfl⟩))
      rw [hlen]
      exact hs.returns_lt hstep i hi
  · intro i hi
    have hlt : i < c.writers.calls.length := lt_of_lt_of_le (hids i hi).2 hs.staged.numbered_le
    refine ⟨_, List.getElem?_eq_getElem hlt, List.mem_append_left _ ((h.writes i _).2 ⟨_, ?_, rfl⟩)⟩
    rw [List.getElem?_map, List.getElem?_eq_getElem hlt]
    rfl
  · intro i hi r hr
    simp only [List.mem_append, List.mem_map, reduceCtorEq, and_false, exists_false, or_false] at hr
    have hlt := ((h.effects i r).1 hr).1
    have := hids i hi
    omega
  · rcases heff with he | he <;> rw [he]
    · exact List.nodup_nil
    · exact List.nodup_range'

theorem mem_effects (h : c.Traced base t) {ev : WriteEvent} {w : Writers}
    (hstep : c.writers.step ev = some w) (i : Nat) :
    i < w.applied.length ↔ i < c.writers.applied.length ∨ i ∈ c.writers.effects ev := by
  obtain ⟨m, l, a, hs⟩ := h.serves
  obtain ⟨happ, heff⟩ := hs.applied_step hstep
  have hlen := Writers.length_applied hs.staged
  rcases heff with he | he
  · rw [happ, he]
    simp [recordsOf]
  · have hle := hs.staged.applied_le
    have hmem : ∀ j ∈ List.range' l (a - l), j < c.writers.calls.length := fun j hj => by
      have := List.mem_range'_1.1 hj
      have := hs.staged.numbered_le
      omega
    rw [happ, List.length_append, List.length_map, he, length_recordsOf hmem, List.length_range', hlen,
      List.mem_range'_1]
    omega

theorem write (h : c.Traced base t) {ev : WriteEvent} (hok : StepsExact c (.write ev))
    (hstep : c.write ev = some c') : c'.Traced base (t ++ c.marks (.write ev)) := by
  obtain ⟨w, hw, rfl⟩ := Clients.write_inv hstep
  obtain ⟨m, l, a, hs⟩ := h.serves
  refine ⟨hs.step_exact hok hw, h.pointed_write hw, fun i op => ?_, fun i res => ?_,
    fun i r hr => ?_, fun i hi => ?_⟩
  · rw [List.mem_append, h.writes, Writers.ops_step hw]
    simp only [Clients.marks, List.mem_append, List.mem_map, Mark.call.injEq, CallId.write.injEq,
      reduceCtorEq, and_false, exists_false, or_false]
    rcases ev.calls_cases with he | ⟨req, he⟩ <;> rw [he]
    · simp
    · simp only [getElem?_concat_eq_some, List.length_map, List.mem_singleton, exists_eq_left,
        or_and_right, exists_or]
      refine or_congr Iff.rfl ⟨fun hop => ⟨req, ⟨hop.1.symm, rfl⟩, hop.2.symm⟩, ?_⟩
      rintro ⟨req', ⟨hi, rfl⟩, hop⟩
      exact ⟨hi.symm, hop.symm⟩
  · rw [List.mem_append, h.effects, h.mem_effects hw]
    simp only [Clients.marks, List.mem_append, List.mem_map, Mark.point.injEq, CallId.write.injEq,
      reduceCtorEq, and_false, exists_false, or_false, false_or]
    rw [or_and_right]
    refine or_congr Iff.rfl ⟨?_, fun hi => ⟨i, hi.1, rfl, hi.2.symm⟩⟩
    rintro ⟨j, hj, rfl, rfl⟩
    exact ⟨hj, rfl⟩
  · exact (h.readers i r hr).append (by simp [Clients.marks])
  · have hold := h.fresh i hi
    refine ⟨fun op hop => ?_, fun res hres => ?_⟩
    · rcases List.mem_append.1 hop with hop | hop
      · exact hold.1 op hop
      · simp [Clients.marks] at hop
    · rcases List.mem_append.1 hres with hres | hres
      · exact hold.2 res hres
      · simp [Clients.marks] at hres

/-- **Every step** keeps the marks in order. -/
theorem step (h : c.Traced base t) {ev : ClientEvent} (hok : StepsExact c ev)
    (hstep : c.step ev = some c') : c'.Traced base (t ++ c.marks ev) := by
  cases ev with
  | write ev => exact h.write hok hstep
  | ask q => exact Option.some.inj hstep ▸ h.ask q
  | take id => exact h.take hstep
  | answer id pq => exact h.answer hstep

theorem run (h : c.Traced base t) {evs : List ClientEvent}
    (hok : Steps.Meets Clients.step StepsExact c evs) (hrun : c.run evs = some c') :
    c'.Traced base (t ++ c.trace evs) := by
  induction evs generalizing c t with
  | nil =>
    rw [Clients.trace, List.append_nil]
    exact Option.some.inj hrun ▸ h
  | cons ev evs ih =>
    obtain ⟨c₁, h₁, hrest⟩ := Option.bind_eq_some_iff.1 hrun
    have hr := ih (h.step hok.1 h₁) (hok.2 c₁ h₁) hrest
    rw [Clients.trace, h₁, Option.map_some, Option.getD_some, ← List.append_assoc]
    exact hr

end Clients.Traced

/-! ## The result -/

/-- **The store is linearizable.** Whatever calls of `put`, `del`, `get` and `scan` run at the
    same time, and whatever flushes, rounds and deletions of files come in between, as long as
    the steps meet `ExactOk`: the calls and their responses are those of a map that takes the
    calls one at a time, in an order that keeps every call behind all that had returned before it
    was made. -/
theorem clients_linearizable {db : DB} (hdb : db.Exact) (hidle : db.inflight = [])
    (hpos : 1 ≤ db.nextSeq) {evs : List ClientEvent} {c : Clients}
    (hok : Steps.Meets Clients.step StepsExact (Clients.start db) evs)
    (hrun : (Clients.start db).run evs = some c) :
    IsLinearizable mapSpec db.contents (history ((Clients.start db).trace evs)) := by
  have h := (Clients.Traced.start hdb hidle hpos).run hok hrun
  rw [List.nil_append] at h
  exact h.pointed.linearizable

/-- A `get` and a `scan` that overlap a `put`: the first takes its version before the batch is
    applied, the second after the flush, and both answer when the call has returned. -/
def overlappingReads : List ClientEvent :=
  [.write (.call (putByte 1 1)), .ask (.get [1]), .take 0,
    .write (.apply 0 []), .write (.engine .flush), .ask (.scan [] [9]), .take 1,
    .write (.finish 0), .answer 0 plainQueue, .answer 1 plainQueue]

theorem clients_linearizable_overlap : ∃ c, (Clients.start (DB.create {})).run overlappingReads = some c ∧
    IsLinearizable mapSpec (DB.create {}).contents
      (history ((Clients.start (DB.create {})).trace overlappingReads)) := by
  have hok : Steps.Meets Clients.step StepsExact (Clients.start (DB.create {})) overlappingReads := by
    decide +kernel
  obtain ⟨c, hc⟩ := Option.isSome_iff_exists.1
    (show ((Clients.start (DB.create {})).run overlappingReads).isSome = true by decide +kernel)
  exact ⟨c, hc, clients_linearizable (DB.Readable.create {}).toExact rfl (by decide) hok hc⟩

end Keystone
