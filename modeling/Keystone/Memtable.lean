/-
  `src/memtable.cpp`: the skip list that holds the newest writes.

  A memtable carries its invariant: the arena is a skip list whose items are sorted by
  (key ascending, seq descending). The tower heights come from coin tosses; no result depends
  on them.

  * `entries_insert`: an insertion puts the entry at its place in the order.
  * `lookup_eq`: a lookup reports the newest version at or below the snapshot.
  * `rawLowerBound_eq`: iteration from a key passes the entries from that key on.
  * `newest_eq`: the default iterator collapses the versions of each key.
  * `memtable_runs`: all of it after any sequence of calls, whatever the tosses.
-/
import Keystone.Lib.SkipList
import Keystone.MergeIterator

namespace Keystone

/-- `key_less`: the node is in front of (`k`, `s`). -/
def keyLess (k : Bytes) (s : UInt64) (n : Entry) : Bool :=
  if n.key ≠ k then n.key < k else n.seq > s

/-- `kNodeOverhead`. -/
def kNodeOverhead : Nat := 64

/-- What a node adds to `approx_bytes_`. -/
def nodeBytes (e : Entry) : Nat := e.key.length + e.value.length + kNodeOverhead

/-- `Memtable`: `head_` and the nodes, `max_height_`, `current_height_`, `approx_bytes_`. -/
structure Memtable where
  list : SkipList.Skip Entry
  maxHeight : Nat
  approxBytes : Nat
  sorted : ∃ es, SkipList.Holds list maxHeight es ∧ SortedLe es
  bytes : approxBytes = ((SkipList.toList list).map nodeBytes).sum
  height_pos : 1 ≤ maxHeight

namespace Memtable

/-- All versions in order: `raw_begin()` to `raw_end()`. -/
def entries (m : Memtable) : List Entry := SkipList.toList m.list

theorem holds_entries (m : Memtable) :
    SkipList.Holds m.list m.maxHeight m.entries ∧ SortedLe m.entries := by
  obtain ⟨es, hh, hs⟩ := m.sorted
  have : m.entries = es := hh.toList
  rw [this]
  exact ⟨hh, hs⟩

/-- `Memtable(int max_height = 12)`. -/
def new (maxHeight : Nat) (h : 1 ≤ maxHeight) : Memtable where
  list := SkipList.empty ⟨[], [], false, 0⟩ maxHeight
  maxHeight := maxHeight
  approxBytes := 0
  sorted := ⟨[], SkipList.holds_empty _ h, List.Pairwise.nil⟩
  bytes := by rw [(SkipList.holds_empty _ h).toList]; rfl
  height_pos := h

/-- `random_level` on the coins the generator would toss. -/
def randomLevel (maxHeight : Nat) : Nat → List Bool → Nat
  | lvl, true :: coins => if lvl < maxHeight then randomLevel maxHeight (lvl + 1) coins else lvl
  | lvl, _ => lvl

theorem randomLevel_bounds {maxHeight lvl : Nat} (coins : List Bool) (h1 : 1 ≤ lvl)
    (h2 : lvl ≤ maxHeight) :
    1 ≤ randomLevel maxHeight lvl coins ∧ randomLevel maxHeight lvl coins ≤ maxHeight := by
  induction coins generalizing lvl with
  | nil => exact ⟨h1, h2⟩
  | cons c coins ih =>
    cases c with
    | false => exact ⟨h1, h2⟩
    | true =>
      rw [randomLevel]
      split
      · exact ih (by omega) (by omega)
      · exact ⟨h1, h2⟩

/-! ## The place of an entry -/

/-- The list with `e` inserted in front of the first entry that is not before it. -/
def insertEntry (e : Entry) (es : List Entry) : List Entry :=
  es.takeWhile (keyLess e.key e.seq) ++ e :: es.dropWhile (keyLess e.key e.seq)

theorem keyLess_iff (k : Bytes) (s : UInt64) (n : Entry) :
    keyLess k s n = true ↔ n.key < k ∨ n.key = k ∧ s < n.seq := by
  unfold keyLess
  by_cases h : n.key = k
  · simp [h]
  · simp [h]

theorem not_keyLess_iff (k : Bytes) (s : UInt64) (n : Entry) :
    keyLess k s n = false ↔ k < n.key ∨ n.key = k ∧ n.seq ≤ s := by
  have h : ¬ n.Before ⟨k, [], false, s⟩ ↔ k < n.key ∨ k = n.key ∧ n.seq ≤ s :=
    Entry.not_before_iff ⟨k, [], false, s⟩ n
  rw [← Bool.not_eq_true, keyLess_iff, @eq_comm _ n.key k]
  rwa [Entry.Before, @eq_comm _ n.key k] at h

/-- On a sorted list `key_less` holds on an initial part. -/
theorem keyLess_dropWhile {es : List Entry} (hs : SortedLe es) (k : Bytes) (s : UInt64) :
    ∀ e ∈ es.dropWhile (keyLess k s), keyLess k s e = false := by
  induction es with
  | nil => simp
  | cons a es ih =>
    have hs' := List.pairwise_cons.1 hs
    by_cases ha : keyLess k s a = true
    · rw [List.dropWhile_cons_of_pos ha]
      exact ih hs'.2
    · rw [List.dropWhile_cons_of_neg ha]
      intro e he
      rw [Bool.not_eq_true] at ha
      rcases List.mem_cons.1 he with rfl | he
      · exact ha
      · rw [not_keyLess_iff] at ha ⊢
        rcases ha with ha | ⟨rfl, ha⟩ <;> rcases hs'.1 e he with h | ⟨h, hq⟩
        · exact Or.inl (lt_trans ha h)
        · exact Or.inl (h ▸ ha)
        · exact Or.inl h
        · exact Or.inr ⟨h.symm, le_trans hq ha⟩

theorem sortedLe_insertEntry (e : Entry) {es : List Entry} (hs : SortedLe es) :
    SortedLe (insertEntry e es) := by
  have hdrop := keyLess_dropWhile hs e.key e.seq
  have htake : ∀ x ∈ es.takeWhile (keyLess e.key e.seq), keyLess e.key e.seq x = true :=
    fun x hx => List.mem_takeWhile_imp hx
  unfold insertEntry SortedLe
  rw [← List.takeWhile_append_dropWhile (p := keyLess e.key e.seq) (l := es)] at hs
  obtain ⟨h1, h2, h3⟩ := List.pairwise_append.1 hs
  rw [List.pairwise_append, List.pairwise_cons]
  refine ⟨h1, ⟨fun x hx => ?_, h2⟩, fun x hx y hy => ?_⟩
  · rcases (not_keyLess_iff _ _ _).1 (hdrop x hx) with h | ⟨h, hq⟩
    · exact Or.inl h
    · exact Or.inr ⟨h.symm, hq⟩
  · rcases List.mem_cons.1 hy with rfl | hy
    · rcases (keyLess_iff _ _ _).1 (htake x hx) with h | ⟨h, hq⟩
      · exact Or.inl h
      · exact Or.inr ⟨h, le_of_lt hq⟩
    · exact h3 x hx y hy

theorem insertEntry_perm (e : Entry) (es : List Entry) : (insertEntry e es).Perm (e :: es) := by
  unfold insertEntry
  refine List.perm_middle.trans ?_
  rw [List.takeWhile_append_dropWhile]

/-! ## Insertion -/

/-- The search, the draw of a height and the links, which `put` and `del` share. -/
def insert (m : Memtable) (e : Entry) (coins : List Bool) : Memtable where
  list := SkipList.insert m.list (keyLess e.key e.seq) e (randomLevel m.maxHeight 1 coins)
  maxHeight := m.maxHeight
  approxBytes := m.approxBytes + nodeBytes e
  sorted := by
    obtain ⟨hh, hs⟩ := m.holds_entries
    obtain ⟨h1, h2⟩ := randomLevel_bounds coins le_rfl m.height_pos
    rw [← List.takeWhile_append_dropWhile (p := keyLess e.key e.seq) (l := m.entries)] at hh
    exact ⟨insertEntry e m.entries, hh.insert (fun x hx => List.mem_takeWhile_imp hx)
      (keyLess_dropWhile hs e.key e.seq) e h1 h2, sortedLe_insertEntry e hs⟩
  bytes := by
    obtain ⟨hh, hs⟩ := m.holds_entries
    obtain ⟨h1, h2⟩ := randomLevel_bounds coins le_rfl m.height_pos
    rw [← List.takeWhile_append_dropWhile (p := keyLess e.key e.seq) (l := m.entries)] at hh
    have hl := (hh.insert (fun x hx => List.mem_takeWhile_imp hx)
      (keyLess_dropWhile hs e.key e.seq) e h1 h2).toList
    have hp : (m.entries.takeWhile (keyLess e.key e.seq) ++
        e :: m.entries.dropWhile (keyLess e.key e.seq)).Perm (e :: m.entries) :=
      insertEntry_perm e m.entries
    rw [hl, (hp.map nodeBytes).sum_eq, List.map_cons, List.sum_cons, m.bytes, Nat.add_comm]
    rfl
  height_pos := m.height_pos

/-- `put`. -/
def put (m : Memtable) (key value : Bytes) (seq : UInt64) (coins : List Bool) : Memtable :=
  m.insert ⟨key, value, false, seq⟩ coins

/-- `del`. -/
def del (m : Memtable) (key : Bytes) (seq : UInt64) (coins : List Bool) : Memtable :=
  m.insert ⟨key, [], true, seq⟩ coins

theorem entries_new (maxHeight : Nat) (h : 1 ≤ maxHeight) : (new maxHeight h).entries = [] :=
  (SkipList.holds_empty _ h).toList

theorem entries_insert (m : Memtable) (e : Entry) (coins : List Bool) :
    (m.insert e coins).entries = insertEntry e m.entries := by
  obtain ⟨hh, hs⟩ := m.holds_entries
  obtain ⟨h1, h2⟩ := randomLevel_bounds coins le_rfl m.height_pos
  rw [← List.takeWhile_append_dropWhile (p := keyLess e.key e.seq) (l := m.entries)] at hh
  exact (hh.insert (fun x hx => List.mem_takeWhile_imp hx)
    (keyLess_dropWhile hs e.key e.seq) e h1 h2).toList

theorem sortedLe_entries (m : Memtable) : SortedLe m.entries := m.holds_entries.2

/-- A memtable takes bytes exactly when it has an entry. -/
theorem approxBytes_eq_zero (m : Memtable) : m.approxBytes = 0 ↔ m.entries = [] := by
  have hb : m.approxBytes = (m.entries.map nodeBytes).sum := m.bytes
  rw [hb]
  cases m.entries with
  | nil => simp
  | cons e es => simp [nodeBytes, kNodeOverhead]

/-! ## Reading -/

/-- `lookup`. -/
def lookup (m : Memtable) (key : Bytes) (snapshotSeq : UInt64) : LookupResult :=
  match (SkipList.search m.list (keyLess key snapshotSeq)).bind (SkipList.itemAt m.list) with
  | none => .notFound
  | some x => if x.key ≠ key then .notFound else x.result

/-- The entries from `raw_lower_bound(key)` on. -/
def rawLowerBound (m : Memtable) (key : Bytes) : List Entry :=
  SkipList.itemsFrom m.list m.list.nodes.length (SkipList.search m.list (keyLess key uint64Max))

/-- The entries split at a position of the search. -/
theorem holds_split (m : Memtable) (key : Bytes) (s : UInt64) :
    SkipList.Holds m.list m.maxHeight (m.entries.takeWhile (keyLess key s) ++
      m.entries.dropWhile (keyLess key s)) := by
  rw [List.takeWhile_append_dropWhile]
  exact m.holds_entries.1

/-- **A lookup reports the newest version at or below the snapshot.** -/
theorem lookup_eq (m : Memtable) (key : Bytes) (s : UInt64) :
    m.lookup key s = lookupIn m.entries key s := by
  have hs := m.sortedLe_entries
  have hdrop := keyLess_dropWhile hs key s
  have hitem := (m.holds_split key s).item_search (fun x hx => List.mem_takeWhile_imp hx) hdrop
  have htake : ((m.entries.takeWhile (keyLess key s)).find? fun e => e.key = key ∧ e.seq ≤ s) =
      none := by
    rw [List.find?_eq_none]
    intro e he
    have hless := List.mem_takeWhile_imp he
    rw [keyLess_iff] at hless
    simp only [decide_eq_true_eq, not_and, not_le]
    rintro rfl
    exact hless.elim (fun h => absurd h (lt_irrefl _)) fun h => h.2
  have hfind : (m.entries.find? fun e => e.key = key ∧ e.seq ≤ s) =
      (m.entries.dropWhile (keyLess key s)).find? fun e => e.key = key ∧ e.seq ≤ s := by
    conv_lhs => rw [← List.takeWhile_append_dropWhile (p := keyLess key s) (l := m.entries)]
    rw [List.find?_append, htake, Option.none_or]
  have hsd : SortedLe (m.entries.dropWhile (keyLess key s)) :=
    List.Pairwise.sublist (List.dropWhile_sublist _) hs
  rw [lookup, hitem, lookupIn_eq_find hs, hfind]
  generalize m.entries.dropWhile (keyLess key s) = q at hdrop hsd
  cases q with
  | nil => rfl
  | cons x q =>
    rcases (not_keyLess_iff key s x).1 (hdrop x (by simp)) with h | ⟨h, hq⟩
    · have hnone : ((x :: q).find? fun e => e.key = key ∧ e.seq ≤ s) = none := by
        rw [List.find?_eq_none]
        intro e he
        have hle : x.key ≤ e.key := by
          rcases List.mem_cons.1 he with rfl | he
          · exact le_rfl
          · exact (List.pairwise_cons.1 hsd.keys).1 e he
        simpa using fun hk => absurd (lt_of_lt_of_le h hle) (by rw [hk]; exact lt_irrefl key)
      rw [hnone]
      simp [ne_of_gt h]
    · rw [List.find?_cons_of_pos (by simp [h, hq])]
      simp [h]

/-- **Iteration from a key on.** -/
theorem rawLowerBound_eq (m : Memtable) (key : Bytes) :
    m.rawLowerBound key = m.entries.filter fun e => key ≤ e.key := by
  have hs := m.sortedLe_entries
  have hless : keyLess key uint64Max = fun e => decide (e.key < key) := by
    funext e
    rw [Bool.eq_iff_iff, keyLess_iff, decide_eq_true_eq]
    constructor
    · rintro (h | h)
      · exact h
      · exact absurd h.2 (not_lt.2 (le_uint64Max _))
    · exact Or.inl
  rw [rawLowerBound, (m.holds_split key uint64Max).itemsFrom_search
    (fun x hx => List.mem_takeWhile_imp hx) (keyLess_dropWhile hs key uint64Max), hless]
  exact dropWhile_eq_filter hs key

/-! ## The newest version of each key -/

/-- `Iterator::operator++`: the next node with another key. -/
def nextKey (m : Memtable) (cur : Entry) (x : Nat) : Option Nat :=
  SkipList.skipWhile m.list (fun e => e.key = cur.key) m.list.nodes.length
    (SkipList.fwd m.list x 0)

/-- The entries of an `Iterator` that stands at `x`. -/
def newestFrom (m : Memtable) : Nat → Option Nat → List Entry
  | 0, _ => []
  | _, none => []
  | fuel + 1, some x =>
    match SkipList.itemAt m.list x with
    | none => []
    | some e => e :: m.newestFrom fuel (m.nextKey e x)

/-- The entries from `begin()` to `end()`. -/
def newest (m : Memtable) : List Entry :=
  m.newestFrom m.list.nodes.length (SkipList.fwd m.list 0 0)

/-- The entries from `lower_bound(key)` on. -/
def lowerBound (m : Memtable) (key : Bytes) : List Entry :=
  m.newestFrom m.list.nodes.length (SkipList.search m.list (keyLess key uint64Max))

theorem collapseAll_first (e : Entry) (l : List Entry) :
    collapseAll true uint64Max (e :: l) =
      e :: collapseAll true uint64Max (l.dropWhile fun x => x.key = e.key) := by
  rw [collapseAll_cons, List.find?_cons_of_pos (by simpa using le_uint64Max e.seq)]
  simp

/-- The iterator at a node collapses the versions from there on: induction on their number. -/
theorem newestFrom_eq (m : Memtable) {l r : List Nat} {q : List Entry}
    (hw : SkipList.Wf m.list m.maxHeight (l ++ r))
    (hr : r.map (SkipList.itemAt m.list) = q.map some) {fuel : Nat} (hf : r.length < fuel) :
    m.newestFrom fuel r.head? = collapseAll true uint64Max q := by
  induction fuel generalizing l r q with
  | zero => omega
  | succ fuel ih =>
    cases r with
    | nil =>
      obtain rfl : q = [] := by simpa using hr.symm
      rfl
    | cons y r =>
      cases q with
      | nil => simp at hr
      | cons e q =>
        simp only [List.map_cons, List.cons.injEq] at hr
        have hcount := hw.count
        rw [List.length_append, List.length_cons] at hcount
        have hw' : SkipList.Wf m.list m.maxHeight ((l ++ [y]) ++ r) := by simpa using hw
        have hskip := SkipList.skipWhile_spec hw' (fun x => decide (x.key = e.key))
          (show r.length ≤ m.list.nodes.length by omega)
        have hmap := SkipList.map_dropWhile_any hr.2 (fun x => decide (x.key = e.key))
        have hsuf := List.dropWhile_suffix (l := r)
          (fun y => (SkipList.itemAt m.list y).any fun x => decide (x.key = e.key))
        obtain ⟨skipped, hsplit⟩ := hsuf
        have hlen := congrArg List.length hsplit
        rw [List.length_append] at hlen
        rw [List.head?_cons, newestFrom, hr.1]
        simp only [nextKey, SkipList.fwd_zero hw, hskip]
        rw [collapseAll_first]
        generalize (r.dropWhile fun y => (SkipList.itemAt m.list y).any
          fun x => decide (x.key = e.key)) = rest at hmap hsplit hlen
        rw [← hsplit, ← List.append_assoc] at hw'
        rw [ih hw' hmap (by simp at hf; omega)]

/-- **The default iterator** collapses all versions. -/
theorem newest_eq (m : Memtable) : m.newest = collapseAll true uint64Max m.entries := by
  obtain ⟨ids, hw, hm⟩ := m.holds_entries.1
  have hw' : SkipList.Wf m.list m.maxHeight ([] ++ ids) := hw
  rw [newest, SkipList.fwd_head hw]
  exact m.newestFrom_eq hw' hm hw.count

theorem lowerBound_eq (m : Memtable) (key : Bytes) :
    m.lowerBound key = collapseAll true uint64Max (m.rawLowerBound key) := by
  have htake : ∀ x ∈ m.entries.takeWhile (keyLess key uint64Max),
      keyLess key uint64Max x = true := fun x hx => List.mem_takeWhile_imp hx
  have hdrop := keyLess_dropWhile m.sortedLe_entries key uint64Max
  have hsplit := m.holds_split key uint64Max
  have hraw := hsplit.itemsFrom_search htake hdrop
  obtain ⟨l, r, hw, -, hr, hl, hrr⟩ := hsplit.split htake hdrop
  have hcount := hw.count
  rw [List.length_append] at hcount
  rw [rawLowerBound, hraw, lowerBound, SkipList.search_spec hw hl hrr]
  exact m.newestFrom_eq hw hr (by omega)

/-! ## Sequences of calls -/

/-- A call of `put` or `del`. -/
inductive Call where
  | put (key value : Bytes) (seq : UInt64)
  | del (key : Bytes) (seq : UInt64)
  deriving DecidableEq, Repr

/-- The version a call adds. -/
def Call.entry : Call → Entry
  | .put key value seq => ⟨key, value, false, seq⟩
  | .del key seq => ⟨key, [], true, seq⟩

/-- A call with the coins its `random_level` tosses. -/
def call (m : Memtable) (c : Call × List Bool) : Memtable :=
  match c.1 with
  | .put key value seq => m.put key value seq c.2
  | .del key seq => m.del key seq c.2

theorem call_eq (m : Memtable) (c : Call × List Bool) : m.call c = m.insert c.1.entry c.2 := by
  obtain ⟨c, coins⟩ := c
  cases c <;> rfl

/-- The memtable after a sequence of calls. -/
def run (m : Memtable) (calls : List (Call × List Bool)) : Memtable := calls.foldl call m

/-- The versions after a run, whatever the tosses. -/
theorem entries_run (m : Memtable) (calls : List (Call × List Bool)) :
    (m.run calls).entries =
      (calls.map fun c => c.1.entry).foldl (fun es e => insertEntry e es) m.entries := by
  induction calls generalizing m with
  | nil => rfl
  | cons c calls ih =>
    rw [run, List.foldl_cons, List.map_cons, List.foldl_cons]
    rw [← entries_insert m c.1.entry c.2, ← call_eq]
    exact ih (m.call c)

theorem foldl_insertEntry_perm (new es : List Entry) :
    (new.foldl (fun es e => insertEntry e es) es).Perm (new ++ es) := by
  induction new generalizing es with
  | nil => exact List.Perm.refl _
  | cons e new ih =>
    rw [List.foldl_cons, List.cons_append]
    exact (ih _).trans (((insertEntry_perm e es).append_left new).trans List.perm_middle)

/-- `m` has the versions `inserted` and reports what they say. -/
structure Represents (m : Memtable) (inserted : List Entry) : Prop where
  levels : ∀ i, (SkipList.levelNodes m.list (i + 1)).Sublist (SkipList.levelNodes m.list i)
  bottom : (SkipList.levelNodes m.list 0).map (SkipList.itemAt m.list) = m.entries.map some
  perm : m.entries.Perm inserted
  sorted : Sorted m.entries
  lookup : ∀ k s, m.lookup k s = lookupIn inserted k s
  raw : ∀ k, m.rawLowerBound k = m.entries.filter fun e => k ≤ e.key
  newest_keys : m.newest.Pairwise fun a b => a.key < b.key
  newest_mem : ∀ e, e ∈ m.newest ↔ newestEntry inserted e.key uint64Max = some e

/-- **The skip list after any calls.** With distinct sequence numbers the memtable represents
    the versions put and deleted, and no result depends on the coins. -/
theorem memtable_runs {maxHeight : Nat} (h : 1 ≤ maxHeight) (calls : List (Call × List Bool))
    (hseq : (calls.map fun c => c.1.entry.seq).Nodup) :
    ((new maxHeight h).run calls).Represents (calls.map fun c => c.1.entry) ∧
    ∀ calls', calls'.map Prod.fst = calls.map Prod.fst →
      ((new maxHeight h).run calls').entries = ((new maxHeight h).run calls).entries ∧
      (∀ k s, ((new maxHeight h).run calls').lookup k s =
        ((new maxHeight h).run calls).lookup k s) ∧
      (∀ k, ((new maxHeight h).run calls').rawLowerBound k =
        ((new maxHeight h).run calls).rawLowerBound k) ∧
      ((new maxHeight h).run calls').newest = ((new maxHeight h).run calls).newest := by
  have hperm : ((new maxHeight h).run calls).entries.Perm (calls.map fun c => c.1.entry) := by
    rw [entries_run, entries_new]
    exact (foldl_insertEntry_perm _ _).trans (by rw [List.append_nil])
  constructor
  · generalize (new maxHeight h).run calls = m at hperm
    have hnd : ((calls.map fun c => c.1.entry).map Entry.seq).Nodup := by
      rw [List.map_map]
      exact hseq
    have hs : Sorted m.entries :=
      m.sortedLe_entries.strict ((hperm.map Entry.seq).nodup_iff.2 hnd)
    have hu : UniqueSeqs (calls.map fun c => c.1.entry) := fun a ha b hb _ hst =>
      List.inj_on_of_nodup_map hnd ha hb hst
    obtain ⟨hlevels, hbottom⟩ := m.holds_entries.1.levels
    refine ⟨hlevels, hbottom, hperm, hs, fun k s => ?_, m.rawLowerBound_eq, ?_, fun e => ?_⟩
    · rw [lookup_eq, lookupIn, lookupIn, newestEntry_perm hu hperm]
    · rw [newest_eq]
      exact collapseAll_keys hs.le
    · rw [newest_eq, mem_collapseAll hs.le, newestEntry_perm hu hperm]
      simp
  · intro calls' hsame
    have hentry : (calls'.map fun c => c.1.entry) = calls.map fun c => c.1.entry := by
      have := congrArg (List.map Call.entry) hsame
      simpa [List.map_map, Function.comp_def] using this
    have hes : ((new maxHeight h).run calls').entries = ((new maxHeight h).run calls).entries := by
      rw [entries_run, entries_run, hentry]
    refine ⟨hes, fun k s => ?_, fun k => ?_, ?_⟩
    · rw [lookup_eq, lookup_eq, hes]
    · rw [rawLowerBound_eq, rawLowerBound_eq, hes]
    · rw [newest_eq, newest_eq, hes]

/-- Two versions of one key and a tombstone, with towers of three heights. -/
def threeCalls : List (Call × List Bool) :=
  [(.put [98] [1] 1, [true, true]), (.del [97] 2, []), (.put [98] [2] 3, [true])]

theorem memtable_runs_three :
    (threeCalls.map fun c => c.1.entry.seq).Nodup ∧
      ((new 12 (by decide)).run threeCalls).lookup [98] 2 = .found [1] ∧
      ((new 12 (by decide)).run threeCalls).newest =
        [⟨[97], [], true, 2⟩, ⟨[98], [2], false, 3⟩] := by
  have hseq : (threeCalls.map fun c => c.1.entry.seq).Nodup := by decide
  have hrep := (memtable_runs (show 1 ≤ 12 by decide) threeCalls hseq).1
  exact ⟨hseq, by rw [hrep.lookup]; decide, by decide⟩

end Memtable

end Keystone
