/-
  `src/merge_iterator.cpp`: the k-way merge of memtable and table sources.

  A source is the list of entries it still has; `std::priority_queue` is any priority queue
  (`SourceQueue`), so the results do not depend on how it breaks ties.

  * `mergeVersions_sorted`, `mergeVersions_perm`: in all-versions mode every entry of every
    source comes out once, in (key ascending, seq descending) order.
  * `versionIterator_current`: the iterator's n-th position is that stream's n-th entry.
  * `mergeNewest_eq`: in collapsing mode the result is `collapse` of that stream.
  * `mem_collapseAll`, `collapseAll_keys`: which entries that are, in strictly increasing key
    order.
  * `merge_all_versions`, `merge_newest_versions`: both modes against the sources.
-/
import Keystone.Lib.KWayMerge
import Keystone.Entry

namespace Keystone

open KWayMerge

/-- `std::priority_queue<MergeSource*, std::vector<MergeSource*>, Cmp>`: a source is on top
    when no other has an entry before its own. -/
abbrev SourceQueue := PriorityQueue (Entry × List Entry) (Lower Entry.Before)

theorem Entry.not_before_trans (a b c : Entry) (h1 : ¬ Entry.Before b a)
    (h2 : ¬ Entry.Before c b) : ¬ Entry.Before c a := by
  rw [Entry.not_before_iff] at h1 h2 ⊢
  exact IsTrans.trans a b c h1 h2

theorem sortedLe_iff (es : List Entry) :
    SortedLe es ↔ es.Pairwise fun a b => ¬ Entry.Before b a := by
  simp only [Entry.not_before_iff]
  rfl

instance : DecidableRel (Lower Entry.Before) :=
  fun x y => inferInstanceAs (Decidable (Entry.Before y.1 x.1))

/-- A concrete queue, for evaluation. -/
def plainQueue : SourceQueue :=
  listQueue (fun x y h1 h2 => by
      rcases Entry.Before.trans h1 h2 with h | h
      · exact lt_irrefl _ h
      · exact lt_irrefl _ h.2)
    (fun x y z h1 h2 => Entry.not_before_trans x.1 y.1 z.1 h1 h2)

/-! ## All versions -/

/-- The entries a `MergeIterator` with `yield_all_versions` goes through. -/
def mergeVersions (pq : SourceQueue) (sources : List (List Entry)) : List Entry :=
  mergeAll pq (start pq sources)

theorem mergeVersions_perm (pq : SourceQueue) (sources : List (List Entry)) :
    (mergeVersions pq sources).Perm sources.flatten :=
  (merge_perm pq le_rfl).trans (items_start pq sources)

theorem mergeVersions_sorted (pq : SourceQueue) {sources : List (List Entry)}
    (hs : ∀ l ∈ sources, SortedLe l) : SortedLe (mergeVersions pq sources) := by
  rw [sortedLe_iff]
  exact merge_sorted pq Entry.not_before_trans le_rfl
    (sourcesSorted_start pq fun l hl => (sortedLe_iff l).1 (hs l hl))

/-- The iterator in this mode: the current entry while `valid_`, and the heap. -/
structure VersionIterator where
  current : Option Entry
  heap : List (Entry × List Entry)

/-- `advance` with `yield_all_versions`. -/
def advanceVersions (pq : SourceQueue) (heap : List (Entry × List Entry)) : VersionIterator :=
  match step pq heap with
  | none => ⟨none, heap⟩
  | some (e, h) => ⟨some e, h⟩

/-- The iterator after its constructor and `n` calls of `next`. -/
def versionIterator (pq : SourceQueue) (sources : List (List Entry)) : Nat → VersionIterator
  | 0 => advanceVersions pq (start pq sources)
  | n + 1 => advanceVersions pq (versionIterator pq sources n).heap

/-- One `advance` takes the first entry off the stream. -/
theorem advanceVersions_spec (pq : SourceQueue) (heap : List (Entry × List Entry)) :
    (advanceVersions pq heap).current = (mergeAll pq heap)[0]? ∧
      mergeAll pq (advanceVersions pq heap).heap = (mergeAll pq heap).drop 1 := by
  unfold advanceVersions
  cases hs : step pq heap with
  | none =>
    obtain rfl := step_eq_none pq hs
    exact ⟨rfl, rfl⟩
  | some p =>
    obtain ⟨e, h⟩ := p
    obtain ⟨hm, -⟩ := mergeAll_cons pq hs
    rw [hm]
    exact ⟨rfl, rfl⟩

theorem versionIterator_spec (pq : SourceQueue) (sources : List (List Entry)) (n : Nat) :
    (versionIterator pq sources n).current = (mergeVersions pq sources)[n]? ∧
      mergeAll pq (versionIterator pq sources n).heap =
        (mergeVersions pq sources).drop (n + 1) := by
  induction n with
  | zero => exact advanceVersions_spec pq (start pq sources)
  | succ n ih =>
    obtain ⟨hcur, hheap⟩ := advanceVersions_spec pq (versionIterator pq sources n).heap
    rw [ih.2] at hcur hheap
    constructor
    · rw [versionIterator, hcur, List.getElem?_drop]
    · rw [versionIterator, hheap, List.drop_drop]

/-- **Nothing is lost or doubled.** The stream is sorted, has every entry of every source
    once, and the iterator goes through it and is valid for exactly as many positions. -/
theorem merge_all_versions (pq : SourceQueue) {sources : List (List Entry)}
    (hs : ∀ l ∈ sources, SortedLe l) :
    SortedLe (mergeVersions pq sources) ∧
      (mergeVersions pq sources).Perm sources.flatten ∧
      ∀ n, (versionIterator pq sources n).current = (mergeVersions pq sources)[n]? ∧
        ((versionIterator pq sources n).current.isSome ↔ n < sources.flatten.length) := by
  have hperm := mergeVersions_perm pq sources
  refine ⟨mergeVersions_sorted pq hs, hperm, fun n => ?_⟩
  have hcur := (versionIterator_spec pq sources n).1
  refine ⟨hcur, ?_⟩
  rw [hcur, ← hperm.length_eq]
  simp

/-- Two sources that share a key, one of them with two of its versions. -/
def twoSources : List (List Entry) :=
  [[⟨[97], [], true, 5⟩, ⟨[97], [1], false, 2⟩], [⟨[97], [2], false, 3⟩, ⟨[98], [3], false, 1⟩]]

theorem twoSources_sorted : ∀ l ∈ twoSources, SortedLe l := by decide

theorem merge_all_versions_two :
    (∀ l ∈ twoSources, SortedLe l) ∧ SortedLe (mergeVersions plainQueue twoSources) ∧
      (mergeVersions plainQueue twoSources).map Entry.seq = [5, 3, 2, 1] :=
  ⟨twoSources_sorted, (merge_all_versions plainQueue twoSources_sorted).1, by decide⟩

/-! ## The newest visible version of each key -/

/-- The inner loop of `advance`: pop everything with the winner's key; `best` is the first
    visible entry among it. -/
def drainKey (pq : SourceQueue) (snapshotSeq : UInt64) (winnerKey : Bytes) :
    Nat → Option Entry → List (Entry × List Entry) → Option Entry × List (Entry × List Entry)
  | 0, best, heap => (best, heap)
  | fuel + 1, best, heap =>
    match step pq heap with
    | none => (best, heap)
    | some (e, h) =>
      if e.key = winnerKey then
        drainKey pq snapshotSeq winnerKey fuel
          (if best.isNone ∧ e.seq ≤ snapshotSeq then some e else best) h
      else (best, heap)

/-- `advance` without `yield_all_versions`. -/
def advance (pq : SourceQueue) (keepTombstones : Bool) (snapshotSeq : UInt64) :
    Nat → List (Entry × List Entry) → Option (Entry × List (Entry × List Entry))
  | 0, _ => none
  | fuel + 1, heap =>
    match step pq heap with
    | none => none
    | some (top, _) =>
      match drainKey pq snapshotSeq top.key ((items heap).length + 1) none heap with
      | (some best, h) =>
        if keepTombstones ∨ ¬ best.tombstone then some (best, h)
        else advance pq keepTombstones snapshotSeq fuel h
      | (none, h) => advance pq keepTombstones snapshotSeq fuel h

/-- `while (iter.valid()) iter.next()`. -/
def iterate (pq : SourceQueue) (keepTombstones : Bool) (snapshotSeq : UInt64) :
    Nat → List (Entry × List Entry) → List Entry
  | 0, _ => []
  | fuel + 1, heap =>
    match advance pq keepTombstones snapshotSeq ((items heap).length + 1) heap with
    | none => []
    | some (e, h) => e :: iterate pq keepTombstones snapshotSeq fuel h

/-- The entries a `MergeIterator` without `yield_all_versions` goes through. -/
def mergeNewest (pq : SourceQueue) (keepTombstones : Bool) (snapshotSeq : UInt64)
    (sources : List (List Entry)) : List Entry :=
  iterate pq keepTombstones snapshotSeq (sources.flatten.length + 1) (start pq sources)

/-- The same on the stream of all versions: of each run of equal keys the first visible one,
    unless it is a tombstone that is not kept. -/
def collapse (keepTombstones : Bool) (s : UInt64) : Nat → List Entry → List Entry
  | 0, _ => []
  | _ + 1, [] => []
  | fuel + 1, e :: l =>
    let rest := collapse keepTombstones s fuel (l.dropWhile fun x => x.key = e.key)
    match (e :: l.takeWhile fun x => x.key = e.key).find? fun x => x.seq ≤ s with
    | none => rest
    | some x => if keepTombstones ∨ ¬ x.tombstone then x :: rest else rest

theorem drainKey_spec (pq : SourceQueue) (s : UInt64) (k : Bytes) {fuel : Nat}
    {heap : List (Entry × List Entry)} (hf : (items heap).length < fuel) (best : Option Entry) :
    ∃ h, drainKey pq s k fuel best heap =
        (best.or (((mergeAll pq heap).takeWhile fun x => x.key = k).find? fun x => x.seq ≤ s), h) ∧
      mergeAll pq h = (mergeAll pq heap).dropWhile fun x => x.key = k := by
  induction fuel generalizing heap best with
  | zero => omega
  | succ fuel ih =>
    rw [drainKey]
    cases hs : step pq heap with
    | none =>
      obtain rfl := step_eq_none pq hs
      refine ⟨[], ?_, rfl⟩
      simp [mergeAll_nil]
    | some p =>
      obtain ⟨e, h⟩ := p
      obtain ⟨hm, hlen⟩ := mergeAll_cons pq hs
      dsimp only
      by_cases hk : e.key = k
      · rw [if_pos hk, hm, List.takeWhile_cons_of_pos (by simpa using hk),
          List.dropWhile_cons_of_pos (by simpa using hk)]
        obtain ⟨h', he, hr⟩ := ih (show (items h).length < fuel by omega)
          (if best.isNone = true ∧ e.seq ≤ s then some e else best)
        refine ⟨h', ?_, hr⟩
        rw [he]
        cases best with
        | some b => simp
        | none =>
          by_cases hq : e.seq ≤ s
          · simp [hq]
          · simp [hq]
      · rw [if_neg hk, hm, List.takeWhile_cons_of_neg (by simpa using hk),
          List.dropWhile_cons_of_neg (by simpa using hk)]
        exact ⟨heap, by simp, hm⟩

theorem dropWhile_key_length (e : Entry) (l : List Entry) :
    (l.dropWhile fun x => x.key = e.key).length ≤ l.length :=
  (List.dropWhile_sublist _).length_le

theorem collapse_fuel (keep : Bool) (s : UInt64) {m n : Nat} {l : List Entry} (hm : l.length ≤ m)
    (hn : l.length ≤ n) : collapse keep s m l = collapse keep s n l := by
  induction m generalizing n l with
  | zero =>
    obtain rfl : l = [] := List.length_eq_zero_iff.1 (by omega)
    cases n <;> rfl
  | succ m ih =>
    cases l with
    | nil => cases n <;> rfl
    | cons e l =>
      rw [List.length_cons] at hm hn
      obtain ⟨n, rfl⟩ : ∃ k, n = k + 1 := ⟨n - 1, by omega⟩
      have hle := dropWhile_key_length e l
      rw [collapse, collapse, ih (by omega) (by omega : _ ≤ n)]

/-- `collapse` with enough fuel. -/
def collapseAll (keep : Bool) (s : UInt64) (l : List Entry) : List Entry :=
  collapse keep s l.length l

theorem collapseAll_cons (keep : Bool) (s : UInt64) (e : Entry) (l : List Entry) :
    collapseAll keep s (e :: l) =
      match (e :: l.takeWhile fun x => x.key = e.key).find? fun x => x.seq ≤ s with
      | none => collapseAll keep s (l.dropWhile fun x => x.key = e.key)
      | some x =>
        if keep ∨ ¬ x.tombstone then
          x :: collapseAll keep s (l.dropWhile fun x => x.key = e.key)
        else collapseAll keep s (l.dropWhile fun x => x.key = e.key) := by
  rw [collapseAll, List.length_cons, collapse,
    collapse_fuel keep s (dropWhile_key_length e l) le_rfl]
  rfl

theorem mergeAll_length (pq : SourceQueue) (heap : List (Entry × List Entry)) :
    (mergeAll pq heap).length = (items heap).length :=
  (merge_perm pq le_rfl).length_eq

theorem advance_spec (pq : SourceQueue) (keep : Bool) (s : UInt64) {fuel : Nat}
    {heap : List (Entry × List Entry)} (hf : (items heap).length < fuel) :
    (advance pq keep s fuel heap = none ∧ collapseAll keep s (mergeAll pq heap) = []) ∨
    ∃ e h, advance pq keep s fuel heap = some (e, h) ∧
      collapseAll keep s (mergeAll pq heap) = e :: collapseAll keep s (mergeAll pq h) ∧
      (items h).length < (items heap).length := by
  induction fuel generalizing heap with
  | zero => omega
  | succ fuel ih =>
    rw [advance]
    cases hs : step pq heap with
    | none =>
      obtain rfl := step_eq_none pq hs
      exact Or.inl ⟨rfl, rfl⟩
    | some p =>
      obtain ⟨top, h0⟩ := p
      obtain ⟨hm, hlen⟩ := mergeAll_cons pq hs
      obtain ⟨h, hdrain, hrest⟩ := drainKey_spec pq s top.key
        (Nat.lt_succ_self (items heap).length) none
      rw [hm, List.dropWhile_cons_of_pos (by simp)] at hrest
      rw [hm, List.takeWhile_cons_of_pos (by simp), Option.none_or] at hdrain
      have hshort : (items h).length < (items heap).length := by
        have hle := dropWhile_key_length top (mergeAll pq h0)
        rw [← hrest, mergeAll_length, mergeAll_length] at hle
        omega
      rw [hm, collapseAll_cons, ← hrest]
      dsimp only
      rw [show (items heap).length + 1 = (items heap).length.succ from rfl, hdrain]
      cases hbest : (top :: (mergeAll pq h0).takeWhile fun x => decide (x.key = top.key)).find?
          fun x => decide (x.seq ≤ s) with
      | none =>
        rcases ih (show (items h).length < fuel by omega) with h1 | ⟨e, h', h1, h2, h3⟩
        · exact Or.inl h1
        · exact Or.inr ⟨e, h', h1, h2, by omega⟩
      | some best =>
        dsimp only
        by_cases hkeep : keep = true ∨ ¬ best.tombstone = true
        · rw [if_pos hkeep, if_pos hkeep]
          exact Or.inr ⟨best, h, rfl, rfl, hshort⟩
        · rw [if_neg hkeep, if_neg hkeep]
          rcases ih (show (items h).length < fuel by omega) with h1 | ⟨e, h', h1, h2, h3⟩
          · exact Or.inl h1
          · exact Or.inr ⟨e, h', h1, h2, by omega⟩

theorem iterate_eq (pq : SourceQueue) (keep : Bool) (s : UInt64) {fuel : Nat}
    {heap : List (Entry × List Entry)} (hf : (items heap).length < fuel) :
    iterate pq keep s fuel heap = collapseAll keep s (mergeAll pq heap) := by
  induction fuel generalizing heap with
  | zero => omega
  | succ fuel ih =>
    rw [iterate]
    rcases advance_spec pq keep s (Nat.lt_succ_self (items heap).length) with
      ⟨h1, h2⟩ | ⟨e, h, h1, h2, h3⟩
    · rw [h1, h2]
    · rw [h1, h2]
      dsimp only
      rw [ih (by omega)]

/-- **Collapsing mode is `collapse` of the all-versions stream.** -/
theorem mergeNewest_eq (pq : SourceQueue) (keep : Bool) (s : UInt64)
    (sources : List (List Entry)) :
    mergeNewest pq keep s sources = collapseAll keep s (mergeVersions pq sources) := by
  refine iterate_eq pq keep s ?_
  rw [(items_start pq sources).length_eq]
  omega

/-! ## What `collapse` yields on a sorted stream -/

theorem key_lt_of_mem_dropWhile {e : Entry} {l : List Entry} (hs : SortedLe (e :: l)) :
    ∀ x ∈ l.dropWhile fun x => x.key = e.key, e.key < x.key := by
  have hs' := List.pairwise_cons.1 hs
  have hkeys := (List.pairwise_cons.1 hs.keys).1
  induction l with
  | nil => simp
  | cons a l ih =>
    have hsl := List.pairwise_cons.1 hs'.2
    by_cases ha : a.key = e.key
    · rw [List.dropWhile_cons_of_pos (by simpa using ha)]
      have hs'' : SortedLe (e :: l) :=
        List.pairwise_cons.2 ⟨fun x hx => hs'.1 x (by simp [hx]), hsl.2⟩
      exact ih hs'' (List.pairwise_cons.1 hs'') (fun x hx => hkeys x (by simp [hx]))
    · rw [List.dropWhile_cons_of_neg (by simpa using ha)]
      have hlt : e.key < a.key := lt_of_le_of_ne (hkeys a (by simp)) (Ne.symm ha)
      intro x hx
      rcases List.mem_cons.1 hx with rfl | hx
      · exact hlt
      · exact lt_of_lt_of_le hlt ((List.pairwise_cons.1 (SortedLe.keys hs'.2)).1 x hx)

/-- The first run of a sorted stream and the rest: versions of its key are in the run only. -/
theorem find_run {e : Entry} {l : List Entry} (hs : SortedLe (e :: l)) (k : Bytes) (s : UInt64) :
    ((e :: l).find? fun x => x.key = k ∧ x.seq ≤ s) =
      if k = e.key then (e :: l.takeWhile fun x => x.key = e.key).find? fun x => x.seq ≤ s
      else (l.dropWhile fun x => x.key = e.key).find? fun x => x.key = k ∧ x.seq ≤ s := by
  have hrun : ∀ x ∈ e :: l.takeWhile (fun x => x.key = e.key), x.key = e.key := by
    intro x hx
    rcases List.mem_cons.1 hx with rfl | hx
    · rfl
    · simpa using List.mem_takeWhile_imp hx
  have hrest := key_lt_of_mem_dropWhile hs
  have hsplit : e :: l = (e :: l.takeWhile fun x => x.key = e.key) ++
      l.dropWhile fun x => x.key = e.key := by
    rw [List.cons_append, List.takeWhile_append_dropWhile]
  rw [hsplit, List.find?_append]
  generalize (e :: l.takeWhile fun x => decide (x.key = e.key)) = g at hrun
  generalize (l.dropWhile fun x => decide (x.key = e.key)) = r at hrest
  by_cases hk : k = e.key
  · subst hk
    have hg : (g.find? fun x => decide (x.key = e.key ∧ x.seq ≤ s)) =
        g.find? fun x => decide (x.seq ≤ s) := by
      refine List.find?_congr fun x hx => ?_
      simp [hrun x hx]
    have hr : (r.find? fun x => decide (x.key = e.key ∧ x.seq ≤ s)) = none := by
      rw [List.find?_eq_none]
      intro x hx
      simp [ne_of_gt (hrest x hx)]
    rw [hg, hr, Option.or_none, if_pos rfl]
  · have hg : (g.find? fun x => decide (x.key = k ∧ x.seq ≤ s)) = none := by
      rw [List.find?_eq_none]
      intro x hx
      simp [hrun x hx, Ne.symm hk]
    rw [hg, Option.none_or, if_neg hk]

/-- Induction over a sorted stream, one run of equal keys after the other. -/
theorem SortedLe.induction_runs {motive : ∀ l, SortedLe l → Prop} {l : List Entry}
    (hs : SortedLe l) (nil : motive [] List.Pairwise.nil)
    (run : ∀ e l (hs : SortedLe (e :: l)) (hsr : SortedLe (l.dropWhile fun x => x.key = e.key)),
      motive _ hsr → motive (e :: l) hs) : motive l hs := by
  induction hn : l.length using Nat.strong_induction_on generalizing l with
  | _ n ih =>
    cases l with
    | nil => exact nil
    | cons e l =>
      have hrest : SortedLe (l.dropWhile fun x => x.key = e.key) :=
        List.Pairwise.sublist ((List.dropWhile_sublist _).trans (List.sublist_cons_self e l)) hs
      have hlen := dropWhile_key_length e l
      exact run e l hs hrest (ih _ (by rw [← hn, List.length_cons]; omega) hrest rfl)

theorem key_of_find_run {e y : Entry} {l : List Entry} {s : UInt64}
    (h : ((e :: l.takeWhile fun x => x.key = e.key).find? fun x => x.seq ≤ s) = some y) :
    y.key = e.key := by
  rcases List.mem_cons.1 (List.mem_of_find?_eq_some h) with rfl | hm
  · rfl
  · simpa using List.mem_takeWhile_imp hm

theorem mem_collapseAll {keep : Bool} {s : UInt64} {l : List Entry} (hs : SortedLe l) (x : Entry) :
    x ∈ collapseAll keep s l ↔
      newestEntry l x.key s = some x ∧ (keep = true ∨ ¬ x.tombstone = true) := by
  rw [newestEntry_eq_find hs]
  induction hs using SortedLe.induction_runs with
  | nil => simp [collapseAll, collapse]
  | run e l hs _ hih =>
    have hrest := key_lt_of_mem_dropWhile hs
    rw [find_run hs, collapseAll_cons]
    by_cases hk : x.key = e.key
    · -- a version of the first key comes from the run only
      have hnot : x ∉ collapseAll keep s (l.dropWhile fun x => x.key = e.key) := by
        rw [hih]
        rintro ⟨hf, -⟩
        exact absurd hk (ne_of_gt (hrest x (List.mem_of_find?_eq_some hf)))
      rw [if_pos hk]
      cases hf : (e :: l.takeWhile fun x => decide (x.key = e.key)).find?
          fun x => decide (x.seq ≤ s) with
      | none => simp [hnot]
      | some y =>
        dsimp only
        split
        · rename_i hkeep
          constructor
          · intro hx
            rcases List.mem_cons.1 hx with rfl | hx
            · exact ⟨rfl, hkeep⟩
            · exact absurd hx hnot
          · rintro ⟨hxy, -⟩
            rw [Option.some.inj hxy]
            exact List.mem_cons_self ..
        · rename_i hkeep
          constructor
          · exact fun hx => absurd hx hnot
          · rintro ⟨hxy, hx⟩
            rw [Option.some.inj hxy] at hkeep
            exact absurd hx hkeep
    · rw [if_neg hk]
      cases hf : (e :: l.takeWhile fun x => decide (x.key = e.key)).find?
          fun x => decide (x.seq ≤ s) with
      | none => exact hih
      | some y =>
        have hxy : x ≠ y := by
          rintro rfl
          exact hk (key_of_find_run hf)
        dsimp only
        split
        · rw [List.mem_cons, hih]
          exact ⟨fun h => h.resolve_left hxy, Or.inr⟩
        · exact hih

theorem collapseAll_keys {keep : Bool} {s : UInt64} {l : List Entry} (hs : SortedLe l) :
    (collapseAll keep s l).Pairwise fun a b => a.key < b.key := by
  induction hs using SortedLe.induction_runs with
  | nil => exact List.Pairwise.nil
  | run e l hs hsr hih =>
    rw [collapseAll_cons]
    cases hf : (e :: l.takeWhile fun x => decide (x.key = e.key)).find?
        fun x => decide (x.seq ≤ s) with
    | none => exact hih
    | some y =>
      dsimp only
      split
      · refine List.pairwise_cons.2 ⟨fun z hz => ?_, hih⟩
        have hz' := ((mem_collapseAll hsr z).1 hz).1
        rw [newestEntry_eq_find hsr] at hz'
        rw [key_of_find_run hf]
        exact key_lt_of_mem_dropWhile hs z (List.mem_of_find?_eq_some hz')
      · exact hih

/-- **One entry per key, the newest visible one.** The iteration ends, its keys are strictly
    increasing, and it yields the newest version of a key with `seq ≤ s` over all sources,
    except for a tombstone that is not kept. -/
theorem merge_newest_versions (pq : SourceQueue) (keep : Bool) (s : UInt64)
    {sources : List (List Entry)} (hs : ∀ l ∈ sources, SortedLe l)
    (hu : UniqueSeqs sources.flatten) :
    (∀ fuel, sources.flatten.length < fuel →
      iterate pq keep s fuel (start pq sources) = mergeNewest pq keep s sources) ∧
    (mergeNewest pq keep s sources).Pairwise (fun a b => a.key < b.key) ∧
    (∀ x, x ∈ mergeNewest pq keep s sources ↔
      newestEntry sources.flatten x.key s = some x ∧ (keep = true ∨ x.tombstone = false)) := by
  have hsorted := mergeVersions_sorted pq hs
  refine ⟨fun fuel hf => ?_, ?_, fun x => ?_⟩
  · rw [mergeNewest_eq]
    exact iterate_eq pq keep s (by rwa [(items_start pq sources).length_eq])
  · rw [mergeNewest_eq]
    exact collapseAll_keys hsorted
  · rw [mergeNewest_eq, mem_collapseAll hsorted, newestEntry_perm hu (mergeVersions_perm pq sources),
      Bool.not_eq_true]

theorem merge_newest_versions_two :
    UniqueSeqs twoSources.flatten ∧
      (mergeNewest plainQueue false 4 twoSources).Pairwise (fun a b => a.key < b.key) ∧
      (mergeNewest plainQueue false 4 twoSources).map Entry.seq = [3, 1] := by
  have hu : UniqueSeqs twoSources.flatten := by
    unfold UniqueSeqs Newest.Unique
    decide
  exact ⟨hu, (merge_newest_versions plainQueue false 4 twoSources_sorted hu).2.1, by decide⟩

end Keystone
