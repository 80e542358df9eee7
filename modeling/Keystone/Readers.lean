/-
  Readers next to writers and the compaction thread.

  A `get` or `scan` holds `mu_` only while it looks into the memtable and takes the current
  version; it reads the tables of that version afterwards, while flushes and rounds replace it.
  What a read took decides its answer: the tables of a version are never changed.
-/
import Keystone.Snapshots

namespace Keystone

/-! ## The two parts of a read -/

/-- The two read calls. -/
inductive Query where
  | get (key : Bytes)
  | scan (start last : Bytes)
  deriving DecidableEq

/-- What a call returns; `fault` is an exception. -/
inductive Response where
  | done
  | value (v : Option Bytes)
  | pairs (ps : List (Bytes × Bytes))
  | fault (f : Fault)
  deriving DecidableEq

/-- Where a read stands: called; past its section with what it took; returned. -/
inductive Reader where
  | asked (q : Query)
  | getting (key : Bytes) (status : LookupResult) (ver : Version)
  | scanning (start last : Bytes) (mtSnapshot : List Entry) (ver : Version)
  | returned

/-- The section under `mu_`. -/
def Query.take (db : DB) : Query → Reader
  | .get key => .getting key (db.memtable.lookup key uint64Max) db.version
  | .scan start last => .scanning start last (db.mtSnapshot start last) db.version

/-- What a call makes of an outcome. -/
def Response.ofExcept {α : Type} (wrap : α → Response) : Except Fault α → Response
  | .ok a => wrap a
  | .error f => .fault f

/-- The rest of the read. -/
def Reader.answer (pq : SourceQueue) : Reader → Option Response
  | .getting key status ver => some (.ofExcept .value (ver.getAfter key uint64Max status))
  | .scanning start last mtSnapshot ver =>
    some (.ofExcept .pairs (ver.scanAfter pq start last uint64Max mtSnapshot))
  | _ => none

/-- The version a read holds. -/
def Reader.version : Reader → Option Version
  | .getting _ _ ver => some ver
  | .scanning _ _ _ ver => some ver
  | _ => none

/-! ## All clients -/

/-- The writers with the store, and the reads in the order of their calls. -/
structure Clients where
  writers : Writers
  readers : List Reader := []

/-- A step of a reader, or of anyone else. -/
inductive ClientEvent where
  | write (ev : WriteEvent)
  | ask (q : Query)
  | take (id : Nat)
  | answer (id : Nat) (pq : SourceQueue)

namespace Clients

/-- The clients of a store that was just opened. -/
def start (db : DB) : Clients := { writers := .start db }

def write (c : Clients) (ev : WriteEvent) : Option Clients :=
  (c.writers.step ev).map fun w => { c with writers := w }

def ask (c : Clients) (q : Query) : Clients := { c with readers := c.readers ++ [.asked q] }

def take (c : Clients) (id : Nat) : Option Clients :=
  match c.readers[id]? with
  | some (.asked q) => some { c with readers := c.readers.set id (q.take c.writers.store) }
  | _ => none

def answer (c : Clients) (id : Nat) (pq : SourceQueue) : Option Clients :=
  match (c.readers[id]?).bind (Reader.answer pq) with
  | some _ => some { c with readers := c.readers.set id .returned }
  | none => none

def step (c : Clients) : ClientEvent → Option Clients
  | .write ev => c.write ev
  | .ask q => some (c.ask q)
  | .take id => c.take id
  | .answer id pq => c.answer id pq

def run (c : Clients) (evs : List ClientEvent) : Option Clients := Steps.run Clients.step c evs

variable {c c' : Clients}

theorem write_inv {ev : WriteEvent} (h : c.write ev = some c') :
    ∃ w, c.writers.step ev = some w ∧ c' = { c with writers := w } := by
  obtain ⟨w, hw, rfl⟩ := Option.map_eq_some_iff.1 h
  exact ⟨w, hw, rfl⟩

theorem take_inv {id : Nat} (h : c.take id = some c') : ∃ q, c.readers[id]? = some (.asked q) ∧
    c' = { c with readers := c.readers.set id (q.take c.writers.store) } := by
  unfold take at h
  split at h
  · rename_i q hq
    exact ⟨q, hq, (Option.some.inj h).symm⟩
  · simp at h

theorem answer_inv {id : Nat} {pq : SourceQueue} (h : c.answer id pq = some c') :
    ∃ r res, c.readers[id]? = some r ∧ r.answer pq = some res ∧
      c' = { c with readers := c.readers.set id .returned } := by
  unfold answer at h
  split at h
  · rename_i res hres
    obtain ⟨r, hr, hans⟩ := Option.bind_eq_some_iff.1 hres
    exact ⟨r, res, hr, hans, (Option.some.inj h).symm⟩
  · simp at h

end Clients

end Keystone
