/-
  `DB::get_impl` and `DB::scan_impl`.

  A read takes the memtable and the current version under the mutex and needs nothing else of
  the store. `getImpl` asks the memtable, then the L0 files from the newest on, then one file of
  each deeper level; the first source that knows the key answers. `scanImpl` merges the same
  sources from `start` on.

  `FileMeta.Gets` and `FileMeta.Seeks` are what the two rely on of a table. Over such tables

  * `getImpl_of_covers`: a point read returns what the set of all entries shows, if each source
    covers those asked after it, and so if no source is older than one asked after it;
  * `scanImpl_of_seeks`: a scan emits what the set of all entries shows.

  In an ordered state whose tables keep each key in one block both apply: `getImpl_eq` and
  `scanImpl_spec`.
-/
import Keystone.Recency

namespace Keystone

/-! ## Point reads -/

/-- One table of the read path: the filter, then the table. -/
def FileMeta.lookup (fm : FileMeta) (key : Bytes) (snapSeq : UInt64) : Except Fault LookupResult :=
  if fm.table.mayContain key then fm.table.get key snapSeq else .ok .notFound

/-- Position of the first file of a level that begins after `key`: `std::upper_bound`. -/
def upperBound (files : List FileMeta) (key : Bytes) : Nat :=
  Bisect.firstFalse (fun i => ¬ key < ((files[i]?).map FileMeta.smallestKey).getD [])
    files.length 0 files.length

/-- One level from L1 down: the single file that may cover the key. -/
def levelLookup (files : List FileMeta) (key : Bytes) (snapSeq : UInt64) :
    Except Fault LookupResult :=
  match upperBound files key with
  | 0 => .ok .notFound
  | i + 1 =>
    match files[i]? with
    | none => .ok .notFound
    | some fm => if key ≤ fm.largestKey then fm.lookup key snapSeq else .ok .notFound

/-- The sources in the order they are asked; the first that knows the key ends the read. -/
def firstHit : List (Except Fault LookupResult) → Except Fault (Option Bytes)
  | [] => .ok none
  | .error f :: _ => .error f
  | .ok (.found value) :: _ => .ok (some value)
  | .ok .deleted :: _ => .ok none
  | .ok .notFound :: rest => firstHit rest

/-- L1 down to `kMaxLevels - 1`. -/
def lowerLevels : List Level := [1, 2, 3, 4, 5, 6]

/-- The part of `DB::get_impl` behind the lock: `status` is what the memtable said. -/
def Version.getAfter (ver : Version) (key : Bytes) (snapSeq : UInt64) (status : LookupResult) :
    Except Fault (Option Bytes) :=
  firstHit (.ok status :: (ver.files 0).reverse.map (fun fm => fm.lookup key snapSeq) ++
    lowerLevels.map fun level => levelLookup (ver.files level) key snapSeq)

/-- `DB::get_impl`. -/
def DB.getImpl (db : DB) (key : Bytes) (snapSeq : UInt64) : Except Fault (Option Bytes) :=
  db.version.getAfter key snapSeq (db.memtable.lookup key snapSeq)

/-- `DB::get(key)`: the present. -/
def DB.get (db : DB) (key : Bytes) : Except Fault (Option Bytes) := db.getImpl key uint64Max

/-! ## Scans -/

/-- The tables a scan of `[start, last]` opens. -/
def Version.scanTables (ver : Version) (start last : Bytes) : List FileMeta :=
  ver.files 0 ++ lowerLevels.flatMap fun level =>
    (ver.files level).filter fun fm => ¬ (fm.largestKey < start ∨ last < fm.smallestKey)

/-- The part of `DB::scan_impl` behind the lock: `mtSnapshot` is the copy of the memtable. The
    source reads its tables block by block and may throw later than the model, which reads each
    of them to its end first. -/
def Version.scanAfter (pq : SourceQueue) (ver : Version) (start last : Bytes) (snapSeq : UInt64)
    (mtSnapshot : List Entry) : Except Fault (List (Bytes × Bytes)) := do
  let tables ← (ver.scanTables start last).mapM fun fm => fm.table.entriesFrom start
  let merged := mergeNewest pq false snapSeq (mtSnapshot :: tables)
  .ok ((merged.takeWhile fun e => e.key ≤ last).map fun e => (e.key, e.value))

/-- The copy of the memtable a scan makes. -/
def DB.mtSnapshot (db : DB) (start last : Bytes) : List Entry :=
  (db.memtable.rawLowerBound start).takeWhile fun e => ¬ last < e.key

/-- `DB::scan_impl`: the pairs it emits, in order. -/
def DB.scanImpl (pq : SourceQueue) (db : DB) (start last : Bytes) (snapSeq : UInt64) :
    Except Fault (List (Bytes × Bytes)) :=
  db.version.scanAfter pq start last snapSeq (db.mtSnapshot start last)

/-- `DB::scan(start, end)`: the present. -/
def DB.scan (pq : SourceQueue) (db : DB) (start last : Bytes) :
    Except Fault (List (Bytes × Bytes)) := db.scanImpl pq start last uint64Max

/-! ## One source -/

/-- No table keeps the versions of a key in two blocks. -/
def DB.WholeTables (db : DB) : Prop :=
  ∀ fm ∈ db.version.allFiles, KeysWhole (blocksOf fm.contents)

section Sources

variable {fm : FileMeta} {files : List FileMeta} {key : Bytes}

/-- What a point read relies on: `get` answers for the table's entries, the filter and the key
    range let all of them through. -/
structure FileMeta.Gets (fm : FileMeta) : Prop where
  get : ∀ key s, fm.table.get key s = .ok (lookupIn fm.contents key s)
  mayContain : ∀ e ∈ fm.contents, fm.table.mayContain e.key = true
  bounds : ∀ e ∈ fm.contents, fm.smallestKey ≤ e.key ∧ e.key ≤ fm.largestKey
  range_le : fm.smallestKey ≤ fm.largestKey

/-- What a scan relies on: the table is sorted and within its key range, and `seek` finds its
    place. -/
structure FileMeta.Seeks (fm : FileMeta) : Prop where
  seek : ∀ start, fm.table.entriesFrom start = .ok (fm.contents.filter fun e => start ≤ e.key)
  sorted : SortedLe fm.contents
  bounds : ∀ e ∈ fm.contents, fm.smallestKey ≤ e.key ∧ e.key ≤ fm.largestKey

theorem FileMeta.Ok.gets (h : fm.Ok) (hw : KeysWhole (blocksOf fm.contents)) : fm.Gets where
  get key s := by
    rw [h.table]
    exact get_tableOf h.sorted h.fits.blocks h.fits.file hw.splitsAgree key s
  mayContain e he := by
    rw [h.table]
    exact mayContain_tableOf he
  bounds e he := h.key_mem he
  range_le := h.range_le

theorem FileMeta.Ok.seeks (h : fm.Ok) (hw : KeysWhole (blocksOf fm.contents)) : fm.Seeks where
  seek start := by
    rw [h.table, entriesFrom_sorted h.sorted h.fits.blocks h.fits.file hw, map_stored]
    exact fun e he => h.storable e (List.mem_of_mem_filter he)
  sorted := h.sorted
  bounds e he := h.key_mem he

theorem lookupIn_absent {es : List Entry} (h : ∀ e ∈ es, e.key ≠ key) (s : UInt64) :
    lookupIn es key s = .notFound := by
  have hnone : newestEntry es key s = none :=
    Newest.newest_eq_none_iff.2 fun e he hk => absurd hk (h e he)
  rw [lookupIn, hnone]

theorem FileMeta.Gets.lookup (h : fm.Gets) (key : Bytes) (s : UInt64) :
    fm.lookup key s = .ok (lookupIn fm.contents key s) := by
  unfold FileMeta.lookup
  by_cases hm : fm.table.mayContain key = true
  · rw [if_pos hm, h.get]
  · rw [if_neg hm, lookupIn_absent]
    rintro e he rfl
    exact hm (h.mayContain e he)

theorem lookupIn_congr {es es' : List Entry} (hu : UniqueSeqs es)
    (hm : ∀ e, e.key = key → (e ∈ es ↔ e ∈ es')) (s : UInt64) :
    lookupIn es key s = lookupIn es' key s := by
  have h : newestEntry es key s = newestEntry es' key s := Newest.newest_congr hu hm
  rw [lookupIn, lookupIn, h]

/-- The bisection splits the level at the first file that begins after the key. -/
theorem upperBound_spec (hs : files.Pairwise fun f g => f.smallestKey ≤ g.smallestKey)
    (key : Bytes) : ∃ as bs, files = as ++ bs ∧ upperBound files key = as.length ∧
      (∀ f ∈ as, f.smallestKey ≤ key) ∧ ∀ f ∈ bs, key < f.smallestKey := by
  let start : Nat → Bytes := fun i => ((files[i]?).map FileMeta.smallestKey).getD []
  have hstart : ∀ i (hi : i < files.length), start i = files[i].smallestKey := by
    intro i hi
    simp [start, List.getElem?_eq_getElem hi]
  have hp : Bisect.Initial (fun i => ¬ key < start i) files.length := by
    intro i j hij hj
    rcases Nat.lt_or_eq_of_le hij with hlt | rfl
    · have hle := List.pairwise_iff_getElem.1 hs i j (by omega) hj hlt
      show ¬ key < start j → ¬ key < start i
      rw [hstart j hj, hstart i (by omega)]
      exact fun h hlt' => h (lt_of_lt_of_le hlt' hle)
    · exact id
  obtain ⟨hn, hlo, hhi⟩ : upperBound files key ≤ files.length ∧
      (∀ i, i < upperBound files key → ¬ key < start i) ∧
      ∀ i, upperBound files key ≤ i → i < files.length → ¬ ¬ key < start i :=
    Bisect.firstFalse_spec hp (le_refl files.length) (by omega)
      (fun i hi => absurd hi (Nat.not_lt_zero i)) (fun i h1 h2 => by omega)
  refine ⟨files.take (upperBound files key), files.drop (upperBound files key),
    (List.take_append_drop _ _).symm, ?_, fun f hf => ?_, fun f hf => ?_⟩
  · rw [List.length_take, Nat.min_eq_left hn]
  · obtain ⟨i, hi, rfl⟩ := List.mem_take_iff_getElem.1 hf
    have h := hlo i (lt_of_lt_of_le hi (Nat.min_le_left _ _))
    rw [hstart i (lt_of_lt_of_le hi (Nat.min_le_right _ _))] at h
    exact not_lt.1 h
  · obtain ⟨i, hi, rfl⟩ := List.mem_drop_iff_getElem.1 hf
    have h := hhi (upperBound files key + i) (Nat.le_add_right _ _) (by omega)
    rw [hstart _ (by omega), not_not] at h
    exact h

/-- **One level of files apart** answers as all its entries together. -/
theorem levelLookup_eq (hok : ∀ f ∈ files, f.Gets)
    (hd : files.Pairwise fun f g => f.largestKey < g.smallestKey)
    (hu : UniqueSeqs (files.flatMap FileMeta.contents)) (key : Bytes) (s : UInt64) :
    levelLookup files key s = .ok (lookupIn (files.flatMap FileMeta.contents) key s) := by
  have hs : files.Pairwise fun f g => f.smallestKey ≤ g.smallestKey :=
    hd.imp_of_mem fun {f g} hf _ h => le_trans (hok f hf).range_le (le_of_lt h)
  obtain ⟨as, bs, rfl, hub, has, hbs⟩ := upperBound_spec hs key
  -- no file behind the bound holds the key
  have hbehind : ∀ f ∈ bs, ∀ e ∈ f.contents, e.key ≠ key := by
    intro f hf e he hk
    have h1 := ((hok f (List.mem_append_right _ hf)).bounds e he).1
    rw [hk] at h1
    exact absurd (hbs f hf) (not_lt.2 h1)
  unfold levelLookup
  rw [hub]
  rcases List.eq_nil_or_concat' as with rfl | ⟨as, fm, rfl⟩
  · rw [lookupIn_absent]
    · rfl
    · intro e he
      obtain ⟨f, hf, he⟩ := List.mem_flatMap.1 he
      exact hbehind f hf e he
  · have hfm : fm ∈ (as ++ [fm]) ++ bs := by simp
    have hget : ((as ++ [fm]) ++ bs)[as.length]? = some fm := by simp
    -- nor does a file before the last one that begins in time
    have hbefore : ∀ f ∈ as, ∀ e ∈ f.contents, e.key ≠ key := by
      intro f hf e he hk
      have h1 := ((hok f (by simp [hf])).bounds e he).2
      rw [List.append_assoc, List.pairwise_append] at hd
      have h2 := hd.2.2 f hf fm (by simp)
      rw [hk] at h1
      exact absurd (lt_of_le_of_lt h1 h2) (not_lt.2 (has fm (by simp)))
    have honly : ∀ e, e.key = key →
        (e ∈ ((as ++ [fm]) ++ bs).flatMap FileMeta.contents ↔ e ∈ fm.contents) := by
      intro e hk
      refine ⟨fun he => ?_, fun he => List.mem_flatMap.2 ⟨fm, hfm, he⟩⟩
      obtain ⟨f, hf, hef⟩ := List.mem_flatMap.1 he
      simp only [List.append_assoc, List.mem_append, List.mem_singleton] at hf
      rcases hf with hf | rfl | hf
      · exact absurd hk (hbefore f hf e hef)
      · exact hef
      · exact absurd hk (hbehind f hf e hef)
    rw [lookupIn_congr hu honly]
    simp only [List.length_append, List.length_singleton, hget]
    by_cases hle : key ≤ fm.largestKey
    · rw [if_pos hle, (hok fm hfm).lookup]
    · rw [if_neg hle, lookupIn_absent]
      rintro e he rfl
      exact hle ((hok fm hfm).bounds e he).2

end Sources

/-! ## All sources -/

/-- A hit in a source decides, where each covers those asked after it. -/
theorem firstHit_covers {layers : List (List Entry)} (hn : layers.Pairwise Covers)
    (hu : UniqueSeqs layers.flatten) (key : Bytes) (s : UInt64) :
    firstHit (layers.map fun es => .ok (lookupIn es key s)) =
      .ok (visible layers.flatten key s) := by
  induction layers with
  | nil => rfl
  | cons es layers ih =>
    rw [List.pairwise_cons] at hn
    have hu' : UniqueSeqs layers.flatten := hu.subset fun e he => List.mem_append_right es he
    have hsplit : newestEntry (es ++ layers.flatten) key s =
        (newestEntry es key s).or (newestEntry layers.flatten key s) := by
      refine Newest.newest_append_of_covers (fun x hx y hy hxk hyk => ?_) hu
      obtain ⟨es', hes', hy⟩ := List.mem_flatten.1 hy
      exact hn.1 es' hes' x hx y hy (hxk.trans hyk.symm)
    rw [List.map_cons, List.flatten_cons, visible, hsplit, lookupIn]
    cases h : newestEntry es key s with
    | none => exact ih hn.2 hu'
    | some e =>
      cases ht : e.tombstone <;> simp [Entry.result, Entry.shown, ht, firstHit]

namespace DB

variable {db : DB}

/-- The sources of a point read in the order they are asked. -/
def layers (db : DB) : List (List Entry) :=
  db.memtable.entries :: (db.version.files 0).reverse.map FileMeta.contents ++
    lowerLevels.map fun level => (db.version.files level).flatMap FileMeta.contents

theorem mem_lowerLevels {level : Level} : level ∈ lowerLevels ↔ 1 ≤ level := by
  revert level
  decide

theorem mem_layers {e : Entry} : e ∈ db.layers.flatten ↔ e ∈ db.entries := by
  simp only [layers, List.cons_append, List.flatten_cons, List.flatten_append, List.mem_append,
    List.mem_flatten, List.mem_map, List.mem_reverse, mem_entries, exists_exists_and_eq_and,
    List.mem_flatMap, Version.mem_allFiles, mem_lowerLevels]
  refine or_congr_right ⟨?_, ?_⟩
  · rintro (⟨f, hf, he⟩ | ⟨level, -, f, hf, he⟩)
    · exact ⟨f, ⟨0, hf⟩, he⟩
    · exact ⟨f, ⟨level, hf⟩, he⟩
  · rintro ⟨f, ⟨level, hf⟩, he⟩
    by_cases hl : level = 0
    · exact Or.inl ⟨f, hl ▸ hf, he⟩
    · exact Or.inr ⟨level, Fin.one_le_of_ne_zero hl, f, hf, he⟩

/-- In a layered version under a memtable on top, each source covers those asked after it. -/
theorem layers_covers (hmem : ∀ f ∈ db.version.allFiles, Covers db.memtable.entries f.contents)
    (hcov : db.version.LayeredBy Covers) : db.layers.Pairwise Covers := by
  have hlevel : ∀ {es level}, (∀ f ∈ db.version.files level, Covers es f.contents) →
      Covers es ((db.version.files level).flatMap FileMeta.contents) := fun hes =>
    ageOrder_covers.of_mem fun y hy => by
      obtain ⟨f, hf, hy⟩ := List.mem_flatMap.1 hy
      exact ⟨f.contents, hy, hes f hf⟩
  rw [layers, List.cons_append, List.pairwise_cons, List.pairwise_append]
  refine ⟨fun es hes => ?_, ?_, ?_, ?_⟩
  · rcases List.mem_append.1 hes with hes | hes
    · obtain ⟨f, hf, rfl⟩ := List.mem_map.1 hes
      exact hmem f (Version.mem_allFiles.2 ⟨0, List.mem_reverse.1 hf⟩)
    · obtain ⟨level, -, rfl⟩ := List.mem_map.1 hes
      exact hlevel fun f hf => hmem f (Version.mem_allFiles.2 ⟨level, hf⟩)
  · rw [List.map_reverse, List.pairwise_reverse, List.pairwise_map]
    exact hcov.l0
  · have hinc : lowerLevels.Pairwise (· < ·) := by decide
    rw [List.pairwise_map]
    refine hinc.imp fun {i j} hij => hlevel fun g hg x hx y hy hk => ?_
    obtain ⟨f, hf, hx⟩ := List.mem_flatMap.1 hx
    exact (hcov.levels i j hij f hf g hg x hx y hy hk).imp_right
      fun hmem => List.mem_flatMap.2 ⟨f, hf, hmem⟩
  · intro xs hxs ys hys
    obtain ⟨f, hf, rfl⟩ := List.mem_map.1 hxs
    obtain ⟨level, hl, rfl⟩ := List.mem_map.1 hys
    refine hlevel fun g hg => hcov.levels 0 level ?_ f (List.mem_reverse.1 hf) g hg
    exact lt_of_lt_of_le (by decide) (mem_lowerLevels.1 hl)

/-- A point read asks the layers in their order. -/
theorem getImpl_layers (hgets : ∀ f ∈ db.version.allFiles, f.Gets) (hd : db.version.Disjoint)
    (hu : UniqueSeqs db.entries) (key : Bytes) (s : UInt64) :
    db.getImpl key s = firstHit (db.layers.map fun es => .ok (lookupIn es key s)) := by
  have hfile : ∀ {level f}, f ∈ db.version.files level → f ∈ db.version.allFiles :=
    fun hf => Version.mem_allFiles.2 ⟨_, hf⟩
  rw [getImpl, Version.getAfter, layers, List.map_append, List.map_cons, List.map_map, List.map_map,
    Memtable.lookup_eq]
  congr 2
  · refine congrArg _ (List.map_congr_left fun f hf => ?_)
    exact (hgets f (hfile (List.mem_reverse.1 hf))).lookup key s
  · refine List.map_congr_left fun level hl => ?_
    refine levelLookup_eq (fun f hf => hgets f (hfile hf)) (hd level (mem_lowerLevels.1 hl))
      (hu.subset fun e he => ?_) key s
    obtain ⟨f, hf, he⟩ := List.mem_flatMap.1 he
    exact mem_entries.2 (Or.inr ⟨f, hfile hf, he⟩)

/-- **A point read** returns what the set of all entries shows, if each source covers those
    asked after it and the deeper levels are in order. -/
theorem getImpl_of_covers (hgets : ∀ f ∈ db.version.allFiles, f.Gets) (hd : db.version.Disjoint)
    (hn : db.layers.Pairwise Covers) (hu : UniqueSeqs db.entries) (key : Bytes) (s : UInt64) :
    db.getImpl key s = .ok (visible db.entries key s) := by
  have hu' : UniqueSeqs db.layers.flatten := hu.subset fun e he => mem_layers.1 he
  rw [getImpl_layers hgets hd hu, firstHit_covers hn hu']
  exact congrArg _ (visible_congr hu' (fun e => mem_layers) key s)

theorem getImpl_eq (h : db.Ordered) (hw : db.WholeTables) (key : Bytes) (s : UInt64) :
    db.getImpl key s = .ok (visible db.entries key s) :=
  getImpl_of_covers (fun f hf => (h.wellFormed.okFiles f hf).gets (hw f hf)) h.disjoint
    (layers_covers (fun _ hf => (h.onTop_file hf).covers)
      (h.layered.imp fun hn => hn.covers)) h.unique key s

/-- **`get_impl` follows the newest-version rule**: over any memtable and any version in which
    the sources come newest first and the levels from 1 on are sorted and disjoint. -/
theorem getImpl_newest_rule (db : DB)
    (hget : ∀ f ∈ db.version.allFiles, ∀ key s,
      f.table.get key s = .ok (lookupIn f.contents key s))
    (hmay : ∀ f ∈ db.version.allFiles, ∀ e ∈ f.contents, f.table.mayContain e.key = true)
    (hbounds : ∀ f ∈ db.version.allFiles, ∀ e ∈ f.contents,
      f.smallestKey ≤ e.key ∧ e.key ≤ f.largestKey)
    (hrange : ∀ f ∈ db.version.allFiles, f.smallestKey ≤ f.largestKey)
    (hsorted : ∀ l, 1 ≤ l → (db.version.files l).Pairwise fun f g =>
      f.smallestKey ≤ g.smallestKey)
    (hapart : ∀ l, 1 ≤ l → (db.version.files l).Pairwise FileMeta.Apart)
    (hlayers : db.layers.Pairwise NotOlder) (hunique : UniqueSeqs db.entries) (key : Bytes)
    (s : UInt64) : db.getImpl key s = .ok (visible db.entries key s) := by
  refine getImpl_of_covers (fun f hf => ⟨hget f hf, hmay f hf, hbounds f hf, hrange f hf⟩)
    (fun l hl => ?_) (hlayers.imp fun hn => hn.covers) hunique key s
  refine ((hsorted l hl).and (hapart l hl)).imp_of_mem fun {f g} _ hg h => ?_
  -- the other order of the two ranges would put `g` in front
  refine h.2.resolve_right fun hlt => ?_
  have hle := hrange g (Version.mem_allFiles.2 ⟨l, hg⟩)
  exact absurd (lt_of_le_of_lt hle hlt) (not_lt.2 h.1)

/-- Two keys in a table of L1, one of them overwritten in the memtable. -/
def olderFile : FileMeta :=
  ⟨1, 1, [97], [98], tableOf [⟨[97], [1], false, 1⟩, ⟨[98], [2], false, 2⟩]⟩

def overwritten : DB where
  dir := {}
  opts := {}
  memtable := Memtable.fresh.put [97] [3] 3 []
  version := ⟨fun l => if l = 1 then [olderFile] else []⟩

theorem contents_olderFile :
    olderFile.contents = [⟨[97], [1], false, 1⟩, ⟨[98], [2], false, 2⟩] := by
  decide +kernel

theorem ok_olderFile : olderFile.Ok := by
  constructor <;> rw [contents_olderFile]
  · rfl
  · decide +kernel
  · decide
  · decide
  · simp
  · rfl
  · rfl

theorem whole_olderFile : KeysWhole (blocksOf olderFile.contents) := by
  rw [contents_olderFile]
  unfold KeysWhole
  decide +kernel

theorem allFiles_overwritten : overwritten.version.allFiles = [olderFile] := rfl

theorem entries_overwritten : overwritten.entries =
    [⟨[97], [3], false, 3⟩, ⟨[97], [1], false, 1⟩, ⟨[98], [2], false, 2⟩] := by
  decide +kernel

theorem unique_overwritten : UniqueSeqs overwritten.entries := by
  rw [entries_overwritten]
  unfold UniqueSeqs Newest.Unique
  decide

theorem getImpl_newest_rule_overwritten :
    overwritten.getImpl [97] 2 = .ok (some [1]) ∧ overwritten.getImpl [97] 3 = .ok (some [3]) := by
  have hall : ∀ {P : FileMeta → Prop}, P olderFile → ∀ f ∈ overwritten.version.allFiles, P f := by
    intro P hP f hf
    rw [allFiles_overwritten, List.mem_singleton] at hf
    exact hf ▸ hP
  have hgets := ok_olderFile.gets whole_olderFile
  have hrule := getImpl_newest_rule overwritten (hall hgets.get) (hall hgets.mayContain)
    (hall hgets.bounds) (hall hgets.range_le) (by decide +kernel)
    (by unfold FileMeta.Apart; decide +kernel) (by decide +kernel) unique_overwritten [97]
  rw [hrule, hrule, entries_overwritten]
  decide

/-! ### Scans -/

/-- Where keys do not fall, reading up to `last` keeps exactly the keys up to it. -/
theorem takeWhile_eq_filter {l : List Entry} (hs : l.Pairwise fun a b => a.key ≤ b.key)
    (last : Bytes) : (l.takeWhile fun e => e.key ≤ last) = l.filter fun e => e.key ≤ last := by
  induction l with
  | nil => rfl
  | cons e l ih =>
    rw [List.pairwise_cons] at hs
    by_cases hle : e.key ≤ last
    · rw [List.takeWhile_cons_of_pos (by simpa using hle),
        List.filter_cons_of_pos (by simpa using hle), ih hs.2]
    · rw [List.takeWhile_cons_of_neg (by simpa using hle),
        List.filter_cons_of_neg (by simpa using hle), eq_comm, List.filter_eq_nil_iff]
      intro x hx hxl
      exact hle (le_trans (hs.1 x hx) (by simpa using hxl))

theorem mem_scanTables {start last : Bytes} {fm : FileMeta} (h : fm ∈ db.version.scanTables start last) :
    fm ∈ db.version.allFiles := by
  rcases List.mem_append.1 h with h | h
  · exact Version.mem_allFiles.2 ⟨0, h⟩
  · obtain ⟨level, -, h⟩ := List.mem_flatMap.1 h
    exact Version.mem_allFiles.2 ⟨level, List.mem_of_mem_filter h⟩

/-- A table the scan skips holds no key of the range. -/
theorem scanTables_cover {start last : Bytes} (hok : ∀ f ∈ db.version.allFiles, f.Seeks)
    {fm : FileMeta} (hfm : fm ∈ db.version.allFiles) {e : Entry} (he : e ∈ fm.contents)
    (hlo : start ≤ e.key) (hhi : e.key ≤ last) : fm ∈ db.version.scanTables start last := by
  obtain ⟨level, hl⟩ := Version.mem_allFiles.1 hfm
  obtain ⟨h1, h2⟩ := (hok fm hfm).bounds e he
  by_cases h0 : level = 0
  · exact List.mem_append_left _ (h0 ▸ hl)
  · refine List.mem_append_right _ (List.mem_flatMap.2 ⟨level,
      mem_lowerLevels.2 (Fin.one_le_of_ne_zero h0), List.mem_filter.2 ⟨hl, ?_⟩⟩)
    rw [decide_eq_true_eq, not_or]
    exact ⟨not_lt.2 (le_trans hlo h2), not_lt.2 (le_trans h1 hhi)⟩

/-- The sorted sources of a scan, as lists of entries. -/
def scanSources (db : DB) (start last : Bytes) : List (List Entry) :=
  ((db.memtable.entries.filter fun e => start ≤ e.key).filter fun e => e.key ≤ last) ::
    (db.version.scanTables start last).map fun fm => fm.contents.filter fun e => start ≤ e.key

theorem scanImpl_eq (hok : ∀ f ∈ db.version.allFiles, f.Seeks) (pq : SourceQueue)
    (start last : Bytes) (s : UInt64) : db.scanImpl pq start last s =
      .ok (((collapseAll false s (mergeVersions pq (db.scanSources start last))).takeWhile
        fun e => e.key ≤ last).map fun e => (e.key, e.value)) := by
  have htables : (db.version.scanTables start last).mapM (fun fm => fm.table.entriesFrom start) =
      Except.ok ((db.version.scanTables start last).map fun fm =>
        fm.contents.filter fun e => start ≤ e.key) := by
    exact mapM_ok fun fm hfm => (hok fm (mem_scanTables hfm)).seek start
  have hmem : db.mtSnapshot start last =
      (db.memtable.entries.filter fun e => start ≤ e.key).filter fun e => e.key ≤ last := by
    rw [mtSnapshot, Memtable.rawLowerBound_eq, ← takeWhile_eq_filter
      (db.memtable.sortedLe_entries.keys.sublist List.filter_sublist) last]
    simp only [not_lt]
  rw [scanImpl, Version.scanAfter, htables, hmem, ← mergeNewest_eq]
  rfl

theorem mem_scanSources (hok : ∀ f ∈ db.version.allFiles, f.Seeks) {start last : Bytes} {e : Entry}
    (hhi : e.key ≤ last) :
    e ∈ (db.scanSources start last).flatten ↔ start ≤ e.key ∧ e ∈ db.entries := by
  simp only [scanSources, List.flatten_cons, List.mem_append, List.mem_filter, List.mem_flatten,
    List.mem_map, exists_exists_and_eq_and, decide_eq_true_eq, mem_entries]
  constructor
  · rintro (⟨⟨he, hlo⟩, -⟩ | ⟨fm, hfm, he, hlo⟩)
    · exact ⟨hlo, Or.inl he⟩
    · exact ⟨hlo, Or.inr ⟨fm, mem_scanTables hfm, he⟩⟩
  · rintro ⟨hlo, he | ⟨fm, hfm, he⟩⟩
    · exact Or.inl ⟨⟨he, hlo⟩, hhi⟩
    · exact Or.inr ⟨fm, scanTables_cover hok hfm he hlo hhi, he, hlo⟩

theorem scanSources_sorted (hok : ∀ f ∈ db.version.allFiles, f.Seeks) (start last : Bytes) :
    ∀ l ∈ db.scanSources start last, SortedLe l := by
  intro l hl
  rcases List.mem_cons.1 hl with rfl | hl
  · exact (db.memtable.sortedLe_entries.sublist List.filter_sublist).sublist List.filter_sublist
  · obtain ⟨fm, hfm, rfl⟩ := List.mem_map.1 hl
    exact (hok fm (mem_scanTables hfm)).sorted.sublist List.filter_sublist

/-- **A scan** emits, in increasing key order, exactly the pairs of the range that the set of
    all entries shows. -/
theorem scanImpl_of_seeks (hok : ∀ f ∈ db.version.allFiles, f.Seeks)
    (hu : UniqueSeqs db.entries) (pq : SourceQueue) (start last : Bytes) (s : UInt64) :
    ∃ out, db.scanImpl pq start last s = .ok out ∧
      (out.Pairwise fun a b => a.1 < b.1) ∧
      ∀ k v, (k, v) ∈ out ↔ start ≤ k ∧ k ≤ last ∧ visible db.entries k s = some v := by
  have hsorted := mergeVersions_sorted pq (scanSources_sorted hok start last)
  have hkeys := @collapseAll_keys false s _ hsorted
  refine ⟨_, scanImpl_eq hok pq start last s, ?_, fun k v => ?_⟩
  · rw [List.pairwise_map]
    exact hkeys.sublist (List.takeWhile_sublist _)
  · rw [takeWhile_eq_filter (hkeys.imp le_of_lt)]
    simp only [List.mem_map, List.mem_filter, mem_collapseAll hsorted, decide_eq_true_eq,
      Prod.mk.injEq, Bool.false_eq_true, false_or]
    -- within the range the merged stream and the store hold the same versions of the key
    have hnew : start ≤ k → k ≤ last →
        newestEntry (mergeVersions pq (db.scanSources start last)) k s =
          newestEntry db.entries k s := by
      intro hlo hhi
      refine (Newest.newest_congr hu fun e he => ?_).symm
      rw [(mergeVersions_perm pq _).mem_iff, mem_scanSources hok (he ▸ hhi), he]
      exact (and_iff_right hlo).symm
    constructor
    · rintro ⟨e, ⟨⟨he, ht⟩, hhi⟩, rfl, rfl⟩
      have hmem := (Newest.isNewest_of_newest he).mem
      rw [(mergeVersions_perm pq _).mem_iff, mem_scanSources hok hhi] at hmem
      refine ⟨hmem.1, hhi, ?_⟩
      rw [visible, ← hnew hmem.1 hhi, he]
      simp [Entry.shown, ht]
    · rintro ⟨hlo, hhi, hv⟩
      rw [visible, ← hnew hlo hhi, Option.bind_eq_some_iff] at hv
      obtain ⟨e, he, hv⟩ := hv
      have hk := (Newest.isNewest_of_newest he).key_eq
      cases ht : e.tombstone with
      | true => simp [Entry.shown, ht] at hv
      | false =>
        have hval : e.value = v := by simpa [Entry.shown, ht] using hv
        exact ⟨e, ⟨⟨hk.symm ▸ he, by simp [ht]⟩, hk.symm ▸ hhi⟩, hk, hval⟩

theorem scanImpl_spec (h : db.Ordered) (hw : db.WholeTables) (pq : SourceQueue)
    (start last : Bytes) (s : UInt64) : ∃ out, db.scanImpl pq start last s = .ok out ∧
      (out.Pairwise fun a b => a.1 < b.1) ∧
      ∀ k v, (k, v) ∈ out ↔ start ≤ k ∧ k ≤ last ∧ visible db.entries k s = some v :=
  scanImpl_of_seeks (fun f hf => (h.wellFormed.okFiles f hf).seeks (hw f hf)) h.unique pq start
    last s

/-- **`scan_impl` follows the newest-version rule**: over any memtable and any sorted tables
    with true ranges, for every queue, every pair of ends and every snapshot. -/
theorem scanImpl_newest_rule (db : DB)
    (hseek : ∀ f ∈ db.version.allFiles, ∀ start,
      f.table.entriesFrom start = .ok (f.contents.filter fun e => start ≤ e.key))
    (hsorted : ∀ f ∈ db.version.allFiles, SortedLe f.contents)
    (hbounds : ∀ f ∈ db.version.allFiles, ∀ e ∈ f.contents,
      f.smallestKey ≤ e.key ∧ e.key ≤ f.largestKey)
    (hunique : UniqueSeqs db.entries) (pq : SourceQueue) (start last : Bytes) (s : UInt64) :
    ∃ out, db.scanImpl pq start last s = .ok out ∧
      (out.Pairwise fun a b => a.1 < b.1) ∧
      ∀ k v, (k, v) ∈ out ↔ start ≤ k ∧ k ≤ last ∧ visible db.entries k s = some v :=
  scanImpl_of_seeks (fun f hf => ⟨hseek f hf, hsorted f hf, hbounds f hf⟩) hunique pq start last s

theorem scanImpl_newest_rule_overwritten :
    ∃ out, overwritten.scanImpl plainQueue [97] [98] 3 = .ok out ∧ ([97], [3]) ∈ out := by
  have hall : ∀ {P : FileMeta → Prop}, P olderFile → ∀ f ∈ overwritten.version.allFiles, P f := by
    intro P hP f hf
    rw [allFiles_overwritten, List.mem_singleton] at hf
    exact hf ▸ hP
  have hseeks := ok_olderFile.seeks whole_olderFile
  obtain ⟨out, hout, -, hmem⟩ := scanImpl_newest_rule overwritten (hall hseeks.seek)
    (hall hseeks.sorted) (hall hseeks.bounds) unique_overwritten plainQueue [97] [98] 3
  refine ⟨out, hout, (hmem [97] [3]).2 ?_⟩
  rw [entries_overwritten]
  decide

end DB

end Keystone
