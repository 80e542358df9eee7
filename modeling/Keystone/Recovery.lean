/-
  Opening a directory.

  `Recoverable dir records ver` says what `DB::open` needs of a directory, as a clean close or
  a crash leaves it: the log holds `records` and perhaps a torn tail, the last MANIFEST
  snapshot lists the files of `ver`, and these files are there.

  * `replay_exact`: on any file, the records that `replay` returns are exactly the bytes it went
    through, so cutting the log at the length `DB::open` adds up keeps them and nothing else.
  * `Openable.open_spec`: the open succeeds, with the logged entries in the memtable and the
    files of `ver` in the version; `Openable.wellFormed`: and the state is well formed.
  * `DB.WellFormed.recoverable`: a well-formed state leaves such a directory.
-/
import Keystone.WellFormed

namespace Keystone

open Frame

/-! ## Maxima -/

theorem le_foldl_max {α : Type} [LinearOrder α] (l : List α) (a : α) :
    a ≤ l.foldl max a ∧ ∀ x ∈ l, x ≤ l.foldl max a := by
  induction l generalizing a with
  | nil => simp
  | cons b l ih =>
    obtain ⟨h1, h2⟩ := ih (max a b)
    refine ⟨le_trans (le_max_left a b) h1, fun x hx => ?_⟩
    rcases List.mem_cons.1 hx with rfl | hx
    · exact le_trans (le_max_right a x) h1
    · exact h2 x hx

theorem foldl_max_mem {α : Type} [LinearOrder α] (l : List α) (a : α) :
    l.foldl max a = a ∨ l.foldl max a ∈ l := by
  induction l generalizing a with
  | nil => exact Or.inl rfl
  | cons b l ih =>
    rcases ih (max a b) with h | h
    · rcases max_choice a b with hm | hm
      · exact Or.inl (h.trans hm)
      · refine Or.inr ?_
        rw [List.foldl_cons, h, hm]
        exact List.mem_cons_self
    · exact Or.inr (List.mem_cons_of_mem b h)

/-! ## The directory after the removals -/

theorem execAll_append (dir : Dir) (ops ops' : List DiskOp) :
    dir.execAll (ops ++ ops') = (dir.execAll ops).execAll ops' := List.foldl_append

theorem execAll_removeTmp (dir : Dir) (ns : List Nat) :
    dir.execAll (ns.map .removeTmp) = { dir with tmp := dir.tmp.filter (· ∉ ns) } := by
  induction ns generalizing dir with
  | nil =>
    show dir = _
    simp
  | cons n ns ih =>
    have h := ih (dir.exec (.removeTmp n))
    show (dir.exec (.removeTmp n)).execAll (ns.map .removeTmp) = _
    rw [h]
    simp only [Dir.exec, List.filter_filter, Dir.mk.injEq, true_and]
    refine List.filter_congr fun x _ => ?_
    simp [Bool.and_comm]

theorem execAll_removeSst (dir : Dir) (ns : List Nat) :
    dir.execAll (ns.map .removeSst) = { dir with sst := dir.sst.filter fun p => p.1 ∉ ns } := by
  induction ns generalizing dir with
  | nil =>
    show dir = _
    simp
  | cons n ns ih =>
    have h := ih (dir.exec (.removeSst n))
    show (dir.exec (.removeSst n)).execAll (ns.map .removeSst) = _
    rw [h]
    simp only [Dir.exec, List.filter_filter, Dir.mk.injEq, true_and, and_true]
    refine List.filter_congr fun x _ => ?_
    simp [Bool.and_comm]

/-! ## What is needed -/

/-- The files of `ver` are there, and the numbers of the directory leave one more. -/
structure OnDisk (dir : Dir) (ver : Version) : Prop where
  sst_nodup : (dir.sst.map Prod.fst).Nodup
  sst_lt : ∀ p ∈ dir.sst, p.1 < 2 ^ 31 - 1
  level : ∀ l, ∀ fm ∈ ver.files l, fm.level = l
  ok : ∀ fm ∈ ver.allFiles, fm.Ok
  onDisk : ∀ fm ∈ ver.allFiles, (fm.number, tableFile fm.contents) ∈ dir.sst
  nodup : (ver.allFiles.map FileMeta.number).Nodup

/-- The live entries are those of the files of `ver`. -/
structure Openable (dir : Dir) (ver : Version) : Prop extends OnDisk dir ver where
  live : ∃ files : List FileMeta, files.Perm ver.allFiles ∧
    DB.liveEntries dir = files.map FileMeta.manifestEntry
  unlisted : dir.manifest = none → DB.liveEntries dir = []

/-- The log and the MANIFEST can be read. -/
structure Recoverable (dir : Dir) (records : List Wal.Record) (ver : Version) : Prop
    extends OnDisk dir ver where
  wal : (dir.wal = none ∧ records = []) ∨
    ∃ tail, dir.wal = some (records.flatMap Wal.encodeRecord ++ tail) ∧ Wal.replay dir.wal = records
  fits : ∀ r ∈ records, r.Fits
  manifest : (dir.manifest = none ∧ ver.allFiles = [] ∧ dir.sst = []) ∨
    ManifestRead dir.manifest ver

theorem find_of_nodup {sst : List (Nat × Bytes)} (hnd : (sst.map Prod.fst).Nodup) {n : Nat}
    {file : Bytes} (hmem : (n, file) ∈ sst) :
    (sst.find? fun p => (p.1 : Int) = (n : Int)) = some (n, file) := by
  induction sst with
  | nil => simp at hmem
  | cons p sst ih =>
    obtain ⟨hp, hnd'⟩ := List.nodup_cons.1 hnd
    rcases List.mem_cons.1 hmem with rfl | hmem'
    · rw [List.find?_cons_of_pos (by simp)]
    · have hne : ¬ (p.1 : Int) = (n : Int) := by
        intro he
        exact hp (Int.ofNat.inj he ▸ List.mem_map_of_mem hmem')
      rw [List.find?_cons_of_neg (by simpa using hne), ih hnd' hmem']

theorem loadLatest_log {snaps : List (List ManifestEntry)} (hf : ∀ s ∈ snaps, Manifest.Fits s)
    (hok : ∀ s ∈ snaps, Manifest.ReaderOk s) :
    Manifest.loadLatest (some (snaps.flatMap Manifest.encodeSnapshot)) = snaps.getLastD [] := by
  have h := Manifest.records_readSnapshot_append hf hok []
  rw [Frame.records_stop Manifest.readSnapshot_nil, List.append_nil, List.append_nil] at h
  rw [Manifest.loadLatest, h]

namespace Recoverable

variable {dir : Dir} {records : List Wal.Record} {ver : Version}

theorem replay (h : Recoverable dir records ver) : Wal.replay dir.wal = records := by
  rcases h.wal with ⟨hw, rfl⟩ | ⟨tail, -, hr⟩
  · rw [hw]
    rfl
  · exact hr

theorem openable (h : Recoverable dir records ver) : Openable dir ver := by
  refine ⟨h.toOnDisk, ?_, ?_⟩
  · rcases h.manifest with ⟨hm, hv, hs⟩ | ⟨snaps, files, hm, hp, hlast, hf, hok⟩
    · refine ⟨[], by rw [hv], ?_⟩
      unfold DB.liveEntries
      rw [hm, hs]
      rfl
    · refine ⟨files, hp, ?_⟩
      unfold DB.liveEntries
      rw [hm, loadLatest_log hf hok, hlast]
      simp
  · intro hm
    rcases h.manifest with ⟨-, -, hs⟩ | ⟨snaps, files, hm', -⟩
    · simp [DB.liveEntries, hm, hs, Manifest.loadLatest]
    · rw [hm] at hm'
      simp at hm'

end Recoverable

namespace Openable

variable {dir : Dir} {ver : Version}

/-- A file of the version is found under its number. -/
theorem find (h : Openable dir ver) {fm : FileMeta} (hfm : fm ∈ ver.allFiles) :
    dir.find fm.manifestEntry.number = some (fm.number, tableFile fm.contents) := by
  have hd := h.onDisk fm hfm
  have hlt : fm.number < 2 ^ 31 := by
    have := h.sst_lt _ hd
    simp only at this
    omega
  have hnum : fm.manifestEntry.number.toInt = fm.number := Int32.toInt_ofNat_of_lt hlt
  unfold Dir.find
  rw [hnum]
  exact find_of_nodup h.sst_nodup hd

theorem clampLevel_ofNat (l : Level) : DB.clampLevel (Int32.ofNat l) = l := by
  revert l
  decide

/-- The MANIFEST entry of a sound file gives its key range. -/
theorem keyRange_eq {fm : FileMeta} (hok : fm.Ok) :
    DB.keyRange fm.manifestEntry fm.table = .ok (fm.smallestKey, fm.largestKey) := by
  unfold DB.keyRange
  split
  · rw [hok.entries]
    have hs := hok.smallest
    have hl := hok.largest
    cases hc : fm.contents with
    | nil => exact absurd hc hok.ne_nil
    | cons e es =>
      rw [hc] at hs hl
      rw [hs, hl]
      rfl
  · rfl

theorem openFile_eq (h : Openable dir ver) {fm : FileMeta} (hfm : fm ∈ ver.allFiles) :
    DB.openFile dir fm.manifestEntry = .ok (some fm) := by
  have hok := h.ok fm hfm
  unfold DB.openFile
  rw [h.find hfm]
  simp only [hok.open]
  show (DB.keyRange fm.manifestEntry fm.table).bind _ = _
  rw [keyRange_eq hok]
  show Except.ok (some (FileMeta.mk fm.number (DB.clampLevel (Int32.ofNat fm.level))
    fm.smallestKey fm.largestKey fm.table)) = _
  rw [clampLevel_ofNat]

theorem openFiles_eq (h : Openable dir ver) {files : List FileMeta}
    (hfiles : ∀ fm ∈ files, fm ∈ ver.allFiles) :
    DB.openFiles dir (files.map FileMeta.manifestEntry) = .ok files := by
  induction files with
  | nil => rfl
  | cons fm files ih =>
    rw [List.map_cons, DB.openFiles, h.openFile_eq (hfiles fm List.mem_cons_self)]
    show (DB.openFiles dir (files.map FileMeta.manifestEntry)).bind _ = _
    rw [ih fun f hf => hfiles f (List.mem_cons_of_mem fm hf)]
    rfl

end Openable

/-! ## The version -/

/-- The order in which `DB::open` leaves a level. -/
def SortedLevel (l : Level) (files : List FileMeta) : Prop :=
  if 1 ≤ l then files.Pairwise fun a b => a.smallestKey ≤ b.smallestKey
  else files.Pairwise fun a b => a.number ≤ b.number

theorem sortedLevel_openVersion (files : List FileMeta) (l : Level) :
    SortedLevel l ((DB.openVersion files).files l) := by
  unfold SortedLevel DB.openVersion
  simp only
  split
  · exact List.pairwise_insertionSort _ _
  · exact List.pairwise_insertionSort _ _

theorem files_openVersion_perm (files : List FileMeta) (l : Level) :
    ((DB.openVersion files).files l).Perm (files.filter fun fm => fm.level = l) := by
  have hnum : (DB.sortByNumber (files.filter fun fm => fm.level = l)).Perm
      (files.filter fun fm => fm.level = l) := List.perm_insertionSort _ _
  unfold DB.openVersion
  simp only
  split
  · exact (sortByKey_perm _).trans hnum
  · exact hnum

theorem flatMap_ite_eq {α β : Type} [DecidableEq α] {ls : List α} (hnd : ls.Nodup) {o : α}
    (ho : o ∈ ls) (x : List β) : (ls.flatMap fun a => if a = o then x else []) = x := by
  induction ls with
  | nil => simp at ho
  | cons a ls ih =>
    obtain ⟨ha, hnd'⟩ := List.nodup_cons.1 hnd
    rw [List.flatMap_cons]
    rcases List.mem_cons.1 ho with rfl | ho'
    · have hrest : (ls.flatMap fun a => if a = o then x else []) = [] := by
        rw [List.flatMap_eq_nil_iff]
        intro b hb
        exact if_neg fun he : b = o => ha (he ▸ hb)
      rw [if_pos rfl, hrest, List.append_nil]
    · rw [if_neg fun he : a = o => ha (he ▸ ho'), ih hnd' ho', List.nil_append]

/-- The files of one level, found by their level field. -/
theorem filter_level_allFiles {ver : Version} (hlevel : ∀ l, ∀ fm ∈ ver.files l, fm.level = l)
    (l : Level) : (ver.allFiles.filter fun fm => fm.level = l) = ver.files l := by
  have hother : ∀ l' : Level, ((ver.files l').filter fun fm => fm.level = l) =
      if l' = l then ver.files l else [] := by
    intro l'
    split
    · rename_i he
      subst he
      rw [List.filter_eq_self]
      exact fun fm hfm => decide_eq_true (hlevel _ fm hfm)
    · rename_i hne
      rw [List.filter_eq_nil_iff]
      intro fm hfm
      rw [decide_eq_true_eq, hlevel l' fm hfm]
      exact hne
  rw [Version.allFiles, List.filter_flatMap]
  simp only [hother]
  exact flatMap_ite_eq (List.nodup_finRange _) (List.mem_finRange l) _

/-! ## The open -/

/-- The state `DB::open` makes of a recoverable directory. -/
structure Opened (dir : Dir) (records : List Wal.Record) (ver : Version) (opts : Options)
    (db : DB) : Prop where
  mem : db.memtable.entries.Perm (records.map Wal.Record.entry)
  files : ∀ l, (db.version.files l).Perm (ver.files l)
  sorted : ∀ l, SortedLevel l (db.version.files l)
  seq_eq : db.nextSeq = DB.openSeq records db.version
  opts_eq : db.opts = opts
  dir_eq : db.dir = dir.execAll (DB.openOps dir)
  next_eq : db.nextSst = DB.nextNumber dir (DB.liveEntries dir)
  idle : db.job = none ∧ db.inflight = [] ∧ db.liveSnapshots = [] ∧ db.waiting = 0 ∧
    db.forceCompact = false ∧ db.doomed = []

theorem validEnd_eq (records : List Wal.Record) :
    DB.validEnd records = (records.flatMap Wal.encodeRecord).length := by
  simp only [DB.validEnd, List.length_flatMap, Wal.encodeRecord_length]

/-- What `DB::open` cuts the log at is the end of its records. -/
theorem validEnd_spec {f rest : Bytes} {records : List Wal.Record}
    (h : f = records.flatMap Wal.encodeRecord ++ rest) :
    DB.validEnd records ≤ f.length ∧
      f.take (DB.validEnd records) = records.flatMap Wal.encodeRecord := by
  rw [validEnd_eq, h, List.take_left, List.length_append]
  exact ⟨Nat.le_add_right _ _, rfl⟩

/-! ### The log -/

namespace Wal

theorem foldl_appendBatch (log : Bytes) (batches : List (List Record)) :
    batches.foldl appendBatch log = log ++ batches.flatten.flatMap encodeRecord := by
  induction batches generalizing log with
  | nil => simp
  | cons batch batches ih => simp [ih, appendBatch]

/-- **Recovery of the log is exact**, whatever the file holds: the valid length is that of the
    records, the file up to it is their encoding, and after any batches appended there and any
    cut of them `replay` returns the records and the appended ones that end before the cut. -/
theorem replay_exact (f : Bytes) :
    DB.validEnd (replay (some f)) ≤ f.length ∧
    f.take (DB.validEnd (replay (some f))) = appendBatch [] (replay (some f)) ∧
    ∀ batches : List (List Record), (∀ batch ∈ batches, ∀ r ∈ batch, r.Fits) → ∀ cut : Nat,
      replay (some (f.take (DB.validEnd (replay (some f))) ++ (batches.foldl appendBatch []).take cut)) =
        replay (some f) ++ uncut encodeRecord cut batches.flatten := by
  obtain ⟨rest, hf, -⟩ := replay_split f
  have hfits := replay_fits (some f)
  generalize replay (some f) = rs at hf hfits ⊢
  obtain ⟨hlen, htake⟩ := validEnd_spec hf
  refine ⟨hlen, ?_, fun batches hb cut => ?_⟩
  · rw [htake, appendBatch, List.nil_append]
  · have hflat : ∀ r ∈ batches.flatten, r.Fits := by
      intro r hr
      obtain ⟨batch, hbatch, hr⟩ := List.mem_flatten.1 hr
      exact hb batch hbatch r hr
    rw [htake, foldl_appendBatch, List.nil_append, replay,
      records_append consumes_readRecord fun r hr => takesBack_readRecord (hfits r hr),
      records_uncut consumes_readRecord (fun r hr => takesBack_readRecord (hflat r hr))
        (fun r hr => refusesTorn_readRecord (hflat r hr)) readRecord_nil]

/-- A log with a byte of garbage behind its one record, and two more records of which the second
    is cut. -/
theorem replay_exact_cut :
    replay (some ((encodeRecord ⟨.put, 1, [7], [8]⟩ ++ [255]).take 23 ++
      ([[⟨.delete, 2, [7], []⟩, ⟨.put, 3, [9], [9]⟩]].foldl appendBatch []).take 30)) =
    [⟨.put, 1, [7], [8]⟩, ⟨.delete, 2, [7], []⟩] := by
  have hrs : replay (some (encodeRecord ⟨.put, 1, [7], [8]⟩ ++ [255])) = [⟨.put, 1, [7], [8]⟩] := by
    decide +kernel
  have h := (replay_exact (encodeRecord ⟨.put, 1, [7], [8]⟩ ++ [255])).2.2
    [[⟨.delete, 2, [7], []⟩, ⟨.put, 3, [9], [9]⟩]] (by simp [Record.Fits, maxFieldLen]) 30
  rw [hrs] at h
  exact h.trans (by decide +kernel)

end Wal

/-- The open leaves the valid part of the log, whatever the file held. -/
theorem execAll_openOps_wal (dir : Dir) : (dir.execAll (DB.openOps dir)).wal =
    some ((Wal.replay dir.wal).flatMap Wal.encodeRecord) := by
  have hrest : ∀ d : Dir, ((d.execAll (if dir.manifest = none ∧ DB.liveEntries dir ≠ [] then
      [.appendManifest (DB.liveEntries dir)] else [])).execAll [.openWal]).wal =
      some (d.wal.getD []) := by
    intro d
    split <;> rfl
  unfold DB.openOps
  rw [execAll_append, execAll_append, hrest, execAll_append, execAll_append, execAll_append,
    execAll_removeTmp, execAll_removeSst]
  cases hw : dir.wal with
  | none => simp [hw, Dir.execAll, Dir.exec, Wal.replay]
  | some f =>
    obtain ⟨rest, hf, -⟩ := Wal.replay_split f
    obtain ⟨hlen, htake⟩ := validEnd_spec hf
    simp [hw, Dir.execAll, Dir.exec, htake, Nat.sub_eq_zero_of_le hlen]

namespace Openable

variable {dir : Dir} {ver : Version}

/-- What the open leaves of the MANIFEST and of the tables. -/
theorem execAll_openOps (h : Openable dir ver) :
    (dir.execAll (DB.openOps dir)).manifest = some (dir.manifest.getD []) ∧
    (dir.execAll (DB.openOps dir)).sst =
      dir.sst.filter fun p => p.1 ∉ DB.orphans dir (DB.liveEntries dir) := by
  have happend : (if dir.manifest = none ∧ DB.liveEntries dir ≠ [] then
      [DiskOp.appendManifest (DB.liveEntries dir)] else []) = [] :=
    if_neg fun hc => hc.2 (h.unlisted hc.1)
  unfold DB.openOps
  rw [happend]
  simp only [execAll_append, execAll_removeTmp, execAll_removeSst, List.append_nil]
  cases hw : dir.wal <;> simp [Dir.execAll, Dir.exec]

theorem mem_orphans {live : List ManifestEntry} {n : Nat} :
    n ∈ DB.orphans dir live ↔ n ∈ dir.sst.map Prod.fst ∧
      (n : Int) ∉ live.map fun entry => entry.number.toInt := by
  unfold DB.orphans
  rw [List.mem_filter, (List.perm_insertionSort _ _).mem_iff, decide_eq_true_eq]

theorem number_toInt (h : Openable dir ver) {fm : FileMeta} (hfm : fm ∈ ver.allFiles) :
    fm.manifestEntry.number.toInt = fm.number := by
  refine Int32.toInt_ofNat_of_lt ?_
  have := h.sst_lt _ (h.onDisk fm hfm)
  simp only at this
  omega

/-- No live file is an orphan. -/
theorem live_kept (h : Openable dir ver) {fm : FileMeta} (hfm : fm ∈ ver.allFiles) :
    fm.number ∉ DB.orphans dir (DB.liveEntries dir) := by
  obtain ⟨files, hp, hlive⟩ := h.live
  rw [mem_orphans, not_and, not_not]
  intro _
  rw [hlive, List.map_map]
  exact List.mem_map.2 ⟨fm, hp.mem_iff.2 hfm, h.number_toInt hfm⟩

/-- The next number is above every file of the directory. -/
theorem nextNumber_spec (h : Openable dir ver) :
    (∀ p ∈ dir.sst, p.1 < DB.nextNumber dir (DB.liveEntries dir)) ∧
      DB.nextNumber dir (DB.liveEntries dir) < 2 ^ 31 := by
  obtain ⟨files, hp, hlive⟩ := h.live
  have hlt : ∀ n ∈ dir.sst.map Prod.fst ++
      (DB.liveEntries dir).map (fun entry => entry.number.toInt.toNat), n < 2 ^ 31 - 1 := by
    intro n hn
    rcases List.mem_append.1 hn with hn | hn
    · obtain ⟨p, hp, rfl⟩ := List.mem_map.1 hn
      exact h.sst_lt p hp
    · rw [hlive, List.map_map] at hn
      obtain ⟨fm, hfm, rfl⟩ := List.mem_map.1 hn
      have hfm' := hp.mem_iff.1 hfm
      have hn' := h.number_toInt hfm'
      have := h.sst_lt _ (h.onDisk fm hfm')
      simp only [Function.comp_apply, hn', Int.toNat_natCast] at this ⊢
      exact this
  have hmax : DB.maxNumber dir (DB.liveEntries dir) < 2 ^ 31 - 1 := by
    unfold DB.maxNumber
    rcases foldl_max_mem (dir.sst.map Prod.fst ++
        (DB.liveEntries dir).map (fun entry => entry.number.toInt.toNat)) 0 with he | he
    · rw [he]
      norm_num
    · exact hlt _ he
  unfold DB.nextNumber
  rw [if_pos hmax]
  refine ⟨fun p hp => ?_, by omega⟩
  exact Nat.lt_succ_of_le ((le_foldl_max _ 0).2 p.1
    (List.mem_append_left _ (List.mem_map_of_mem hp)))

/-- **Opening such a directory** succeeds: the memtable has the logged entries and the version
    the listed files, each level sorted. -/
theorem open_spec (h : Openable dir ver) (opts : Options) (coins : List (List Bool)) :
    ∃ db, DB.open opts coins dir = .ok db ∧ Opened dir (Wal.replay dir.wal) ver opts db := by
  obtain ⟨files, hp, hlive⟩ := h.live
  have hfiles : DB.openFiles dir (files.map FileMeta.manifestEntry) = .ok files :=
    h.openFiles_eq fun fm hfm => hp.mem_iff.1 hfm
  let db : DB :=
    { dir := dir.execAll (DB.openOps dir)
      opts := opts
      memtable := Memtable.fresh.applyAll (Wal.replay dir.wal) coins
      version := DB.openVersion files
      nextSst := DB.nextNumber dir (DB.liveEntries dir)
      nextSeq := DB.openSeq (Wal.replay dir.wal) (DB.openVersion files) }
  refine ⟨db, ?_, ?_, ?_, ?_, rfl, rfl, rfl, rfl, rfl, rfl, rfl, rfl, rfl, rfl⟩
  · unfold DB.open
    rw [hlive, hfiles, ← hlive]
    rfl
  · have := Memtable.fresh.entries_applyAll (Wal.replay dir.wal) coins
    rwa [Memtable.entries_fresh, List.append_nil] at this
  · intro l
    refine (files_openVersion_perm files l).trans ?_
    rw [← filter_level_allFiles h.level l]
    exact hp.filter _
  · exact sortedLevel_openVersion files

theorem opened (h : Openable dir ver) {opts : Options} {coins : List (List Bool)} {db : DB}
    (hdb : DB.open opts coins dir = .ok db) : Opened dir (Wal.replay dir.wal) ver opts db := by
  obtain ⟨db', hopen, ho⟩ := h.open_spec opts coins
  rw [hdb] at hopen
  exact Except.ok.inj hopen ▸ ho

end Openable

theorem allFiles_perm {ver ver' : Version} (h : ∀ l, (ver'.files l).Perm (ver.files l)) :
    ver'.allFiles.Perm ver.allFiles :=
  List.Perm.flatMap_left _ fun l _ => h l

section Opened

variable {dir : Dir} {records : List Wal.Record} {ver : Version} {opts : Options}
  {coins : List (List Bool)} {db : DB}

/-- The tables of the opened state are sound. -/
theorem Openable.tablesOk (h : Openable dir ver) (hdb : DB.open opts coins dir = .ok db) :
    TablesOk db.dir.sst db.version db.nextSst db.doomed db.job := by
  have ho := h.opened hdb
  obtain ⟨hjob, -, -, -, -, hdoom⟩ := ho.idle
  have hdir := ho.dir_eq
  have hnext := ho.next_eq
  obtain ⟨-, hsst⟩ := h.execAll_openOps
  have hall := allFiles_perm ho.files
  obtain ⟨hlt, hnlt⟩ := h.nextNumber_spec
  have hdisk : ∀ fm ∈ db.version.allFiles, (fm.number, tableFile fm.contents) ∈ db.dir.sst := by
    intro fm hfm
    have hfm' := hall.mem_iff.1 hfm
    rw [hdir, hsst]
    exact List.mem_filter.2 ⟨h.onDisk fm hfm', decide_eq_true (h.live_kept hfm')⟩
  rw [hjob, hdoom]
  have hused : usedNumbers db.version none = db.version.allFiles.map FileMeta.number := by
    simp [usedNumbers, Job.outputsOf, Job.writerNumbers]
  have hout : db.version.allFiles ++ Job.outputsOf none = db.version.allFiles := by
    simp [Job.outputsOf]
  constructor
  · rw [hdir, hsst]
    exact h.sst_nodup.sublist (List.filter_sublist.map Prod.fst)
  · rw [hdir, hsst, hnext]
    exact fun p hp => hlt p (List.mem_filter.1 hp).1
  · rw [hnext]
    exact hnlt
  · exact fun l fm hfm => h.level l fm ((ho.files l).mem_iff.1 hfm)
  · rw [hout]
    exact fun fm hfm => h.ok fm (hall.mem_iff.1 hfm)
  · rw [hout]
    exact hdisk
  · simp
  · rw [hused, (hall.map FileMeta.number).nodup_iff]
    exact h.nodup
  · rw [hused, hnext]
    intro n hn
    obtain ⟨fm, hfm, rfl⟩ := List.mem_map.1 hn
    exact hlt _ (h.onDisk fm (hall.mem_iff.1 hfm))
  · simp
  · simp
  · simp [Job.writerNumbers]
  · simp [Job.pieces]
  · simp [Job.inputsOf]

/-- The opened state is well formed, whatever the log held. -/
theorem Openable.wellFormed (h : Openable dir ver) (hdb : DB.open opts coins dir = .ok db) :
    db.WellFormed := by
  have ho := h.opened hdb
  refine ⟨h.tablesOk hdb, ?_, by simp [ho.idle.2.1]⟩
  rw [ho.dir_eq]
  exact ⟨Wal.replay dir.wal, execAll_openOps_wal dir, Wal.replay_fits _, ho.mem⟩

theorem Recoverable.opened (h : Recoverable dir records ver)
    (hdb : DB.open opts coins dir = .ok db) : Opened dir records ver opts db :=
  h.replay ▸ h.openable.opened hdb

theorem Recoverable.manifestRead (h : Recoverable dir records ver)
    (hdb : DB.open opts coins dir = .ok db) : ManifestRead db.dir.manifest db.version := by
  have ho := h.opened hdb
  have hall := allFiles_perm ho.files
  rw [ho.dir_eq, h.openable.execAll_openOps.1]
  rcases h.manifest with ⟨hm, hv, -⟩ | ⟨snaps, files, hm, hp, hrest⟩
  · refine ⟨[], [], by rw [hm]; rfl, ?_, rfl, by simp, by simp⟩
    rw [hv] at hall
    rw [hall.eq_nil]
  · exact ⟨snaps, files, by rw [hm]; rfl, hp.trans hall.symm, hrest⟩

theorem Recoverable.manifestOk (h : Recoverable dir records ver)
    (hdb : DB.open opts coins dir = .ok db) : ManifestOk db.dir.manifest db.version :=
  (h.manifestRead hdb).ok

end Opened

/-! ## The directory of a running store -/

theorem TablesOk.liveOnDisk {dir : Dir} {ver : Version} {nextSst : Nat} {doomed : List Nat}
    {job : Option Job} (ht : TablesOk dir.sst ver nextSst doomed job) : OnDisk dir ver where
  sst_nodup := ht.sst_nodup
  sst_lt := by
    intro p hp
    have h1 := ht.sst_lt p hp
    have h2 := ht.next_lt
    omega
  level := ht.level
  ok := fun fm hfm => ht.ok fm (List.mem_append_left _ hfm)
  onDisk := fun fm hfm => ht.onDisk fm (List.mem_append_left _ hfm)
  nodup := by
    have := (List.nodup_append.1 ht.nodup).1
    rw [List.map_append] at this
    exact (List.nodup_append.1 this).1

/-- Sound tables, a log and a MANIFEST that can be read make a recoverable directory. -/
theorem TablesOk.recoverable {dir : Dir} {ver : Version} {nextSst : Nat} {doomed : List Nat}
    {job : Option Job} {mem : List Entry} (ht : TablesOk dir.sst ver nextSst doomed job)
    (hlog : LogOk dir.wal mem) (hman : ManifestRead dir.manifest ver) :
    ∃ records, mem.Perm (records.map Wal.Record.entry) ∧ Recoverable dir records ver := by
  obtain ⟨records, hwal, hf, hp⟩ := hlog
  refine ⟨records, hp, ht.liveOnDisk, Or.inr ⟨[], by rw [hwal, List.append_nil], ?_⟩, hf, Or.inr hman⟩
  rw [hwal, Wal.replay_append hf]

/-- A well-formed state whose MANIFEST is readable leaves a recoverable directory. -/
theorem DB.WellFormed.recoverable {db : DB} (hw : db.WellFormed)
    (hm : ManifestOk db.dir.manifest db.version)
    (hread : Manifest.ReaderOk db.version.toManifest) :
    ∃ records, db.memtable.entries.Perm (records.map Wal.Record.entry) ∧
      Recoverable db.dir records db.version :=
  hw.tables.recoverable hw.log (hm.read hread)

end Keystone
