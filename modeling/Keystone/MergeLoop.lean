/-
  The merge loop of `DB::compaction_loop`: which versions of the merged stream are kept, and
  how the kept ones are split into output files.

  The file is finished as soon as the bytes added to it reach `target_file_size`, whatever the
  next key is. So the output files of a round have disjoint key ranges exactly when no such
  point lies between two kept versions of one key (`mergeOutputs_disjoint_iff`).
-/
import Keystone.SSTableIter

namespace Keystone

/-! ## The loop -/

/-- `prev_key` and `kept_anchor`. -/
structure Retention where
  prevKey : Bytes
  keptAnchor : Bool
  deriving DecidableEq, Repr

/-- Whether the loop keeps the entry, and the two variables behind it. -/
def keepEntry (oldestSnap : UInt64) (isBottommost : Bool) (st : Retention) (e : Entry) :
    Bool × Retention :=
  let st := if e.key ≠ st.prevKey then ⟨e.key, false⟩ else st
  if e.seq > oldestSnap then (true, st)
  else if ¬ st.keptAnchor then
    (! (e.tombstone && isBottommost), { st with keptAnchor := true })
  else (false, st)

/-- The variables of the loop. `writer` has the entries added to the open writer, `outputs`
    those of each finished one. -/
structure MergeLoop where
  retention : Retention
  writer : Option (List Entry)
  curBytes : Nat
  outputs : List (List Entry)
  deriving DecidableEq, Repr

namespace MergeLoop

/-- The variables in front of the loop. -/
def start : MergeLoop := ⟨⟨[], false⟩, none, 0, []⟩

/-- The lambda `finish_writer`. -/
def finishWriter (st : MergeLoop) : MergeLoop :=
  match st.writer with
  | none => st
  | some w => { st with outputs := st.outputs ++ [w], writer := none }

/-- The lambda `start_writer`, when no writer is open. -/
def startWriter (st : MergeLoop) : MergeLoop :=
  match st.writer with
  | none => { st with writer := some [], curBytes := 0 }
  | some _ => st

/-- What an entry adds to `cur_bytes`. -/
def entryBytes (e : Entry) : Nat := 17 + e.key.length + e.value.length

/-- The body of `if (keep)`. -/
def addKept (targetFileSize : Nat) (st : MergeLoop) (e : Entry) : MergeLoop :=
  let st := st.startWriter
  let st := { st with
    writer := st.writer.map (· ++ [e])
    curBytes := st.curBytes + entryBytes e }
  if st.curBytes ≥ targetFileSize then st.finishWriter else st

/-- One turn of `while (iter.valid())`. -/
def step (oldestSnap : UInt64) (isBottommost : Bool) (targetFileSize : Nat) (st : MergeLoop)
    (e : Entry) : MergeLoop :=
  let (keep, retention) := keepEntry oldestSnap isBottommost st.retention e
  let st := { st with retention := retention }
  if keep then st.addKept targetFileSize e else st

end MergeLoop

/-- The entry lists of the output files of a round over `stream`, in the order produced. -/
def mergeOutputs (oldestSnap : UInt64) (isBottommost : Bool) (targetFileSize : Nat)
    (stream : List Entry) : List (List Entry) :=
  (stream.foldl (MergeLoop.step oldestSnap isBottommost targetFileSize)
    MergeLoop.start).finishWriter.outputs

/-! ## Retention and split, separately -/

/-- The kept entries. -/
def retain (oldestSnap : UInt64) (isBottommost : Bool) : Retention → List Entry → List Entry
  | _, [] => []
  | st, e :: es =>
    let r := keepEntry oldestSnap isBottommost st e
    if r.1 then e :: retain oldestSnap isBottommost r.2 es
    else retain oldestSnap isBottommost r.2 es

/-- The files made of the kept entries when `cur`, of `bytes` bytes, is in the open writer. -/
def splitFiles (targetFileSize : Nat) : List Entry → Nat → List Entry → List (List Entry)
  | [], _, [] => []
  | c :: cur, _, [] => [c :: cur]
  | cur, bytes, e :: es =>
    if bytes + MergeLoop.entryBytes e ≥ targetFileSize then
      (cur ++ [e]) :: splitFiles targetFileSize [] 0 es
    else splitFiles targetFileSize (cur ++ [e]) (bytes + MergeLoop.entryBytes e) es

/-- The loop variables with `cur` in the open writer; an empty `cur` is no writer. -/
def MergeLoop.Open (st : MergeLoop) (cur : List Entry) (bytes : Nat) : Prop :=
  (cur = [] ∧ bytes = 0 ∧ st.writer = none) ∨ (cur ≠ [] ∧ st.writer = some cur ∧ st.curBytes = bytes)

theorem MergeLoop.finishWriter_outputs {st : MergeLoop} {cur : List Entry} {bytes : Nat}
    (h : st.Open cur bytes) (target : Nat) :
    st.finishWriter.outputs = st.outputs ++ splitFiles target cur bytes [] := by
  rcases h with ⟨rfl, rfl, hw⟩ | ⟨hne, hw, rfl⟩
  · simp [finishWriter, hw, splitFiles]
  · obtain ⟨c, cur, rfl⟩ := List.exists_cons_of_ne_nil hne
    simp [finishWriter, hw, splitFiles]

theorem MergeLoop.addKept_open {st : MergeLoop} {cur : List Entry} {bytes : Nat}
    (h : st.Open cur bytes) (target : Nat) (e : Entry) :
    (st.addKept target e).retention = st.retention ∧
    if bytes + entryBytes e ≥ target then
      (st.addKept target e).Open [] 0 ∧
        (st.addKept target e).outputs = st.outputs ++ [cur ++ [e]]
    else (st.addKept target e).Open (cur ++ [e]) (bytes + entryBytes e) ∧
      (st.addKept target e).outputs = st.outputs := by
  have hstart : st.startWriter.writer = some cur ∧ st.startWriter.curBytes = bytes ∧
      st.startWriter.outputs = st.outputs ∧ st.startWriter.retention = st.retention := by
    rcases h with ⟨rfl, rfl, hw⟩ | ⟨-, hw, rfl⟩ <;> simp [startWriter, hw]
  obtain ⟨h1, h2, h3, h4⟩ := hstart
  unfold addKept
  simp only [h1, h2, h3, h4, Option.map_some]
  by_cases hge : bytes + entryBytes e ≥ target
  · simp [hge, finishWriter, Open]
  · simp [hge, Open]

theorem mergeLoop_outputs (oldestSnap : UInt64) (isBottommost : Bool) (target : Nat)
    (stream : List Entry) {st : MergeLoop} {cur : List Entry} {bytes : Nat}
    (h : st.Open cur bytes) :
    (stream.foldl (MergeLoop.step oldestSnap isBottommost target) st).finishWriter.outputs =
      st.outputs ++
        splitFiles target cur bytes (retain oldestSnap isBottommost st.retention stream) := by
  induction stream generalizing st cur bytes with
  | nil => exact MergeLoop.finishWriter_outputs h target
  | cons e es ih =>
    rw [List.foldl_cons, retain]
    cases hk : (keepEntry oldestSnap isBottommost st.retention e).1 with
    | false =>
      have hstep : MergeLoop.step oldestSnap isBottommost target st e =
          { st with retention := (keepEntry oldestSnap isBottommost st.retention e).2 } := by
        simp [MergeLoop.step, hk]
      have h' : MergeLoop.Open
          { st with retention := (keepEntry oldestSnap isBottommost st.retention e).2 } cur bytes := h
      rw [hstep, ih h']
      rfl
    | true =>
      have hstep : MergeLoop.step oldestSnap isBottommost target st e =
          MergeLoop.addKept target
            { st with retention := (keepEntry oldestSnap isBottommost st.retention e).2 } e := by
        simp [MergeLoop.step, hk]
      obtain ⟨hr, hadd⟩ := MergeLoop.addKept_open
        (show MergeLoop.Open
          { st with retention := (keepEntry oldestSnap isBottommost st.retention e).2 } cur bytes
          from h) target e
      rw [hstep, if_pos rfl, splitFiles]
      split
      · rename_i hge
        rw [if_pos hge] at hadd
        rw [ih hadd.1, hadd.2, hr]
        simp
      · rename_i hge
        rw [if_neg hge] at hadd
        rw [ih hadd.1, hadd.2, hr]

theorem mergeOutputs_eq (oldestSnap : UInt64) (isBottommost : Bool) (target : Nat)
    (stream : List Entry) :
    mergeOutputs oldestSnap isBottommost target stream =
      splitFiles target [] 0 (retain oldestSnap isBottommost ⟨[], false⟩ stream) := by
  have := mergeLoop_outputs oldestSnap isBottommost target stream
    (show MergeLoop.start.Open [] 0 from Or.inl ⟨rfl, rfl, rfl⟩)
  simpa [mergeOutputs, MergeLoop.start] using this

/-! ## Key ranges of the outputs -/

theorem retain_sublist (oldestSnap : UInt64) (isBottommost : Bool) (st : Retention)
    (es : List Entry) : (retain oldestSnap isBottommost st es).Sublist es := by
  induction es generalizing st with
  | nil => exact List.Sublist.slnil
  | cons e es ih =>
    rw [retain]
    split
    · exact (ih _).cons_cons e
    · exact (ih _).cons e

theorem flatten_splitFiles (target : Nat) (cur : List Entry) (bytes : Nat) (es : List Entry) :
    (splitFiles target cur bytes es).flatten = cur ++ es := by
  induction es generalizing cur bytes with
  | nil => cases cur <;> simp [splitFiles]
  | cons e es ih =>
    rw [splitFiles]
    split <;> simp [ih]

theorem splitFiles_ne_nil {target : Nat} {cur : List Entry} {bytes : Nat} {es f : List Entry}
    (h : f ∈ splitFiles target cur bytes es) : f ≠ [] := by
  induction es generalizing cur bytes with
  | nil =>
    cases cur with
    | nil => simp [splitFiles] at h
    | cons c cur =>
      rw [splitFiles, List.mem_singleton] at h
      simp [h]
  | cons e es ih =>
    rw [splitFiles] at h
    split at h
    · rcases List.mem_cons.1 h with rfl | h
      · simp
      · exact ih h
    · exact ih h

/-- Along the kept entries: wherever the bytes since the last cut reach the target, the next
    kept entry has another key. -/
def CutsBetweenKeys (target : Nat) : Nat → List Entry → Prop
  | bytes, e :: e' :: es =>
    if bytes + MergeLoop.entryBytes e ≥ target then
      e.key ≠ e'.key ∧ CutsBetweenKeys target 0 (e' :: es)
    else CutsBetweenKeys target (bytes + MergeLoop.entryBytes e) (e' :: es)
  | _, _ => True

instance decidableCutsBetweenKeys (target : Nat) :
    (bytes : Nat) → (es : List Entry) → Decidable (CutsBetweenKeys target bytes es)
  | _, [] => isTrue trivial
  | _, [_] => isTrue trivial
  | bytes, e :: e' :: es =>
    have := decidableCutsBetweenKeys target 0 (e' :: es)
    have := decidableCutsBetweenKeys target (bytes + MergeLoop.entryBytes e) (e' :: es)
    inferInstanceAs (Decidable (if bytes + MergeLoop.entryBytes e ≥ target then
      e.key ≠ e'.key ∧ CutsBetweenKeys target 0 (e' :: es)
      else CutsBetweenKeys target (bytes + MergeLoop.entryBytes e) (e' :: es)))

/-- One version of each key leaves nothing to separate. -/
theorem cutsBetweenKeys_of_keys {target bytes : Nat} {es : List Entry}
    (h : es.Pairwise fun a b => a.key < b.key) : CutsBetweenKeys target bytes es := by
  induction es generalizing bytes with
  | nil => trivial
  | cons e es ih =>
    obtain ⟨he, hes⟩ := List.pairwise_cons.1 h
    cases es with
    | nil => trivial
    | cons e' es =>
      rw [CutsBetweenKeys]
      split
      · exact ⟨ne_of_lt (he e' List.mem_cons_self), ih hes⟩
      · exact ih hes

/-- The largest key of each file, as its writer reports it, is below the smallest of the
    next. -/
def FilesIncrease (files : List (List Entry)) : Prop :=
  files.IsChain fun f f' => (SSTableWriter.new.addAll f).largestKey <
    (SSTableWriter.new.addAll f').smallestKey

/-- All versions of a key are in one file. -/
def KeysInOneFile (files : List (List Entry)) : Prop :=
  files.Pairwise fun f f' => ∀ e ∈ f, ∀ e' ∈ f', e.key ≠ e'.key

/-- The writer of a file reports its first and its last key. -/
theorem addAll_keys (es : List Entry) :
    (SSTableWriter.new.addAll es).smallestKey = headKey es ∧
      (SSTableWriter.new.addAll es).largestKey = lastKey es := by
  have h := addAll_new es
  have hflush : ∀ w : SSTableWriter, w.flushBlock.smallestKey = w.smallestKey ∧
      w.flushBlock.largestKey = w.largestKey := by
    intro w
    unfold SSTableWriter.flushBlock
    split <;> simp
  obtain ⟨h1, h2⟩ := hflush (SSTableWriter.new.addAll es)
  rw [← h1, ← h2, h]
  simp [stateOf, flatten_blocksOf]

theorem filesIncrease_iff (files : List (List Entry)) :
    FilesIncrease files ↔ files.IsChain fun f f' => lastKey f < headKey f' := by
  unfold FilesIncrease
  simp only [addAll_keys]

theorem headKey_splitFiles (target : Nat) (cur : List Entry) (bytes : Nat) (e : Entry)
    (es : List Entry) :
    ∃ f fs, splitFiles target cur bytes (e :: es) = f :: fs ∧ headKey f = headKey (cur ++ [e]) := by
  induction es generalizing cur bytes e with
  | nil =>
    rw [splitFiles]
    split
    · exact ⟨cur ++ [e], _, rfl, rfl⟩
    · cases cur with
      | nil => exact ⟨[e], [], rfl, rfl⟩
      | cons c cur => exact ⟨c :: cur ++ [e], [], rfl, rfl⟩
  | cons e' es ih =>
    rw [splitFiles]
    split
    · exact ⟨cur ++ [e], _, rfl, rfl⟩
    · obtain ⟨f, fs, hf, hk⟩ := ih (cur ++ [e]) (bytes + MergeLoop.entryBytes e) e'
      refine ⟨f, fs, hf, hk.trans ?_⟩
      cases cur <;> rfl

/-- The cut points decide: induction along the kept entries, one file boundary at a time. -/
theorem splitFiles_increase_iff (target : Nat) (cur : List Entry) (bytes : Nat)
    {kept : List Entry} (hs : kept.Pairwise fun a b => a.key ≤ b.key) :
    ((splitFiles target cur bytes kept).IsChain fun f f' => lastKey f < headKey f') ↔
      CutsBetweenKeys target bytes kept := by
  induction kept generalizing cur bytes with
  | nil => cases cur <;> simp [splitFiles, CutsBetweenKeys]
  | cons e es ih =>
    have hs' := List.pairwise_cons.1 hs
    cases es with
    | nil =>
      have : (splitFiles target cur bytes [e]) = [cur ++ [e]] := by
        cases cur <;> simp [splitFiles]
      simp [this, CutsBetweenKeys]
    | cons e' es =>
      rw [splitFiles, CutsBetweenKeys]
      split
      · obtain ⟨f, fs, hf, hk⟩ := headKey_splitFiles target [] 0 e' es
        have hrest := ih [] 0 hs'.2
        rw [hf] at hrest ⊢
        rw [List.isChain_cons_cons, hrest, hk, lastKey_append_singleton]
        refine and_congr_left fun _ => ?_
        exact ⟨ne_of_lt, lt_of_le_of_ne (hs'.1 e' (List.mem_cons_self ..))⟩
      · exact ih (cur ++ [e]) _ hs'.2

theorem lastKey_mem {f : List Entry} (h : f ≠ []) : ∃ e ∈ f, e.key = lastKey f := by
  refine ⟨f.getLast h, List.getLast_mem h, ?_⟩
  rw [lastKey, List.getLast?_eq_some_getLast h]
  rfl

theorem le_lastKey {f : List Entry} (hs : f.Pairwise fun a b => a.key ≤ b.key) {e : Entry}
    (he : e ∈ f) : e.key ≤ lastKey f := by
  rcases List.eq_nil_or_concat' f with rfl | ⟨l, c, rfl⟩
  · simp at he
  rw [lastKey_append_singleton]
  rcases List.mem_append.1 he with he | he
  · exact (List.pairwise_append.1 hs).2.2 e he c (by simp)
  · simp only [List.mem_singleton] at he
    exact le_of_eq (congrArg Entry.key he)

/-- Files cut out of a sorted list between keys have increasing ranges. -/
theorem pairwise_increase {files : List (List Entry)} (hne : ∀ f ∈ files, f ≠ [])
    (hs : files.flatten.Pairwise fun a b => a.key ≤ b.key) (hkeys : KeysInOneFile files) :
    files.Pairwise fun f f' => lastKey f < headKey f' := by
  refine ((List.pairwise_flatten.1 hs).2.and hkeys).imp_of_mem fun hf hf' h => ?_
  obtain ⟨e, he, hk⟩ := lastKey_mem (hne _ hf)
  obtain ⟨e', he', hk'⟩ := headKey_mem (hne _ hf')
  rw [← hk, ← hk']
  exact lt_of_le_of_ne (h.1 e he e' he') (h.2 e he e' he')

/-- For files cut out of a sorted list: increasing ranges and whole keys are the same. -/
theorem filesIncrease_iff_keysInOneFile {files : List (List Entry)} (hne : ∀ f ∈ files, f ≠ [])
    (hs : files.flatten.Pairwise fun a b => a.key ≤ b.key) :
    FilesIncrease files ↔ KeysInOneFile files := by
  rw [filesIncrease_iff, KeysInOneFile]
  induction files with
  | nil => simp
  | cons f fs ih =>
    have hs' := hs
    rw [List.flatten_cons, List.pairwise_append] at hs'
    have hrest := ih (fun g hg => hne g (List.mem_cons_of_mem f hg)) hs'.2.1
    rw [List.pairwise_cons, ← hrest]
    cases fs with
    | nil => simp
    | cons g gs =>
      rw [List.isChain_cons_cons]
      refine and_congr_left fun _ => ⟨fun hlt h hh e he e' he' => ?_, fun hdis => ?_⟩
      · -- the first key of the next file is between the two
        obtain ⟨x, hx, hxk⟩ := headKey_mem (hne g (by simp))
        have h1 : e.key ≤ lastKey f := le_lastKey hs'.1 he
        have h2 : headKey g ≤ e'.key := by
          rw [List.flatten_cons, List.pairwise_append] at hs'
          rcases List.mem_cons.1 hh with rfl | hh
          · cases h with
            | nil => simp at he'
            | cons y h =>
              rcases List.mem_cons.1 he' with rfl | he'
              · exact le_rfl
              · exact (List.pairwise_cons.1 hs'.2.1.1).1 e' he'
          · rw [← hxk]
            exact hs'.2.1.2.2 x hx e' (List.mem_flatten.2 ⟨h, hh, he'⟩)
        exact ne_of_lt (lt_of_le_of_lt h1 (lt_of_lt_of_le hlt h2))
      · obtain ⟨x, hx, hxk⟩ := lastKey_mem (hne f (by simp))
        obtain ⟨y, hy, hyk⟩ := headKey_mem (hne g (by simp))
        rw [← hxk, ← hyk]
        exact lt_of_le_of_ne (hs'.2.2 x hx y (List.mem_flatten.2 ⟨g, by simp, hy⟩))
          (hdis g (by simp) x hx y hy)

/-- A round that cuts between keys makes files of increasing ranges, all pairs of them. -/
theorem mergeOutputs_increase {stream : List Entry} (hs : SortedLe stream) {oldestSnap : UInt64}
    {isBottommost : Bool} {target : Nat}
    (hcuts : CutsBetweenKeys target 0 (retain oldestSnap isBottommost ⟨[], false⟩ stream)) :
    (mergeOutputs oldestSnap isBottommost target stream).Pairwise
      fun f f' => lastKey f < headKey f' := by
  have hkept := hs.keys.sublist (retain_sublist oldestSnap isBottommost ⟨[], false⟩ stream)
  have hflat : ((splitFiles target [] 0 (retain oldestSnap isBottommost ⟨[], false⟩
      stream)).flatten).Pairwise fun a b => a.key ≤ b.key := by
    rw [flatten_splitFiles, List.nil_append]
    exact hkept
  rw [mergeOutputs_eq]
  refine pairwise_increase (fun f hf => splitFiles_ne_nil hf) hflat ?_
  rw [← filesIncrease_iff_keysInOneFile (fun f hf => splitFiles_ne_nil hf) hflat, filesIncrease_iff]
  exact (splitFiles_increase_iff target [] 0 hkept).2 hcuts

/-- **When the output files of a round have disjoint ranges.** For every sorted stream: the
    files increase exactly when all retained versions of each key are in one file, and exactly
    when no point at which the bytes reach the target lies between two retained versions of
    one key. -/
theorem mergeOutputs_disjoint_iff (stream : List Entry) (hs : SortedLe stream)
    (oldestSnap : UInt64) (isBottommost : Bool) (targetFileSize : Nat) :
    (FilesIncrease (mergeOutputs oldestSnap isBottommost targetFileSize stream) ↔
      KeysInOneFile (mergeOutputs oldestSnap isBottommost targetFileSize stream)) ∧
    (FilesIncrease (mergeOutputs oldestSnap isBottommost targetFileSize stream) ↔
      CutsBetweenKeys targetFileSize 0
        (retain oldestSnap isBottommost ⟨[], false⟩ stream)) := by
  have hkept := hs.keys.sublist (retain_sublist oldestSnap isBottommost ⟨[], false⟩ stream)
  rw [mergeOutputs_eq]
  refine ⟨filesIncrease_iff_keysInOneFile (fun f hf => splitFiles_ne_nil hf) ?_, ?_⟩
  · rw [flatten_splitFiles, List.nil_append]
    exact hkept
  · rw [filesIncrease_iff]
    exact splitFiles_increase_iff targetFileSize [] 0 hkept

/-- The theorem without a live snapshot: one version of each key is left, and the files
    increase. -/
theorem mergeOutputs_disjoint_iff_latest :
    FilesIncrease (mergeOutputs uint64Max false 1
      [⟨[97], [1], false, 3⟩, ⟨[97], [2], false, 1⟩, ⟨[98], [], true, 2⟩]) :=
  ((mergeOutputs_disjoint_iff
    [⟨[97], [1], false, 3⟩, ⟨[97], [2], false, 1⟩, ⟨[98], [], true, 2⟩] (by decide)
    uint64Max false 1).2).2 (by decide)

/-- With a snapshot at 1 both versions of one key are kept, and a small target puts them into
    two files with the same range. -/
theorem mergeOutputs_split_versions :
    SortedLe [⟨[97], [1], false, 2⟩, ⟨[97], [2], false, 1⟩] ∧
    mergeOutputs 1 false 1 [⟨[97], [1], false, 2⟩, ⟨[97], [2], false, 1⟩] =
      [[⟨[97], [1], false, 2⟩], [⟨[97], [2], false, 1⟩]] ∧
    ¬ FilesIncrease (mergeOutputs 1 false 1 [⟨[97], [1], false, 2⟩, ⟨[97], [2], false, 1⟩]) := by
  refine ⟨by decide, by decide, ?_⟩
  rw [filesIncrease_iff]
  decide

end Keystone
