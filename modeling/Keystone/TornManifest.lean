/-
  A MANIFEST append cut short by a crash, and the appends after it.

  `DB::open` truncates the WAL to its valid length before it appends to it again. For the
  MANIFEST it does not: `Manifest::open` is `O_APPEND`, so what is committed after a torn
  record lands behind it. `load_latest` then parses the torn bytes together with the records
  that follow as one record.

  * `loadLatest_cut`: a torn append alone loses nothing that was committed before it.
  * `records_eq_iff`: the scan returns what the bytes spell, whatever they are.
  * `restored_after_torn`: unless the torn bytes and what follows pass the CRC as one record, the
    scan stops at the torn tail, on this and on every later open. The snapshots committed after
    the crash are lost and the tables they name are removed.
-/
import Keystone.Tidy

namespace Keystone.Manifest

open Frame

/-- All key bytes of a snapshot. -/
def keyBytes (files : List ManifestEntry) : Nat :=
  (files.map fun f => f.smallestKey.length + f.largestKey.length).sum

/-- At most 65536 entries and at most 262144 key bytes. -/
def WithinLimits (files : List ManifestEntry) : Prop :=
  files.length ≤ maxCount ∧ keyBytes files ≤ restSlack

instance (files : List ManifestEntry) : Decidable (WithinLimits files) :=
  inferInstanceAs (Decidable (_ ∧ _))

theorem keyBytesBeforeLast_le (files : List ManifestEntry) :
    keyBytesBeforeLast files ≤ keyBytes files := by
  induction files with
  | nil => exact Nat.le_refl _
  | cons f es ih =>
    cases es with
    | nil => simp [keyBytesBeforeLast, keyBytes]
    | cons g es =>
      simp only [keyBytesBeforeLast, keyBytes, List.map_cons, List.sum_cons] at ih ⊢
      omega

theorem entry_le_keyBytes {files : List ManifestEntry} {f : ManifestEntry} (hf : f ∈ files) :
    f.smallestKey.length + f.largestKey.length ≤ keyBytes files :=
  List.single_le_sum (by simp) _ (List.mem_map_of_mem hf)

theorem WithinLimits.readerOk {files : List ManifestEntry} (h : WithinLimits files) :
    ReaderOk files :=
  ⟨h.1, Nat.le_trans (keyBytesBeforeLast_le files) h.2⟩

theorem WithinLimits.fits {files : List ManifestEntry} (h : WithinLimits files) : Fits files := by
  intro f hf
  have h1 := entry_le_keyBytes hf
  have h2 := h.2
  unfold restSlack at h2
  exact ⟨by omega, by omega⟩

/-- **A torn tail is ignored.** However many snapshots were appended and wherever the file is
    cut, the last snapshot whose record lies wholly before the cut is what is loaded, and the
    empty list if there is none. -/
theorem loadLatest_cut (snaps : List (List ManifestEntry)) (h : ∀ s ∈ snaps, WithinLimits s)
    (cut : Nat) :
    loadLatest ((appendAll none snaps).map fun file => file.take cut) =
      (uncut encodeSnapshot cut snaps).getLastD [] := by
  by_cases hne : snaps = []
  · subst hne
    rfl
  · rw [appendAll_eq none snaps hne, Option.map_some, Option.getD_none, List.nil_append, loadLatest,
      records_uncut consumes_readSnapshot
      (fun s hs => takesBack_readSnapshot (h s hs).fits (h s hs).readerOk)
      (fun s hs => refusesTorn_readSnapshot (h s hs).fits (h s hs).readerOk) readSnapshot_nil]

/-- Two snapshots, cut inside the second. -/
theorem loadLatest_cut_second :
    loadLatest ((appendAll none [[⟨1, 0, [97], [98]⟩], [⟨1, 0, [97], [98]⟩, ⟨2, 0, [97], [99]⟩]]).map
      fun file => file.take 50) = [⟨1, 0, [97], [98]⟩] :=
  (loadLatest_cut [[⟨1, 0, [97], [98]⟩], [⟨1, 0, [97], [98]⟩, ⟨2, 0, [97], [99]⟩]] (by decide) 50).trans
    (by decide +kernel)

/-! ## Appends after a torn one -/

/-- The file after a crash: complete records, then a part of one more. -/
def tornFile (done : List (List ManifestEntry)) (torn : Bytes) : Option Bytes :=
  some (done.flatMap encodeSnapshot ++ torn)

/-- The bytes `bs` are the records of `ys`, each within what `load_latest` handles, and then
    bytes that no such record begins. -/
def Spells (bs : Bytes) (ys : List (List ManifestEntry)) : Prop :=
  (∀ y ∈ ys, Fits y ∧ ReaderOk y) ∧
    ∃ rest, bs = ys.flatMap encodeSnapshot ++ rest ∧
      ∀ z, Fits z → ReaderOk z → ¬ encodeSnapshot z <+: rest

theorem readSnapshot_eq_none_iff {bs : Bytes} : readSnapshot bs = none ↔
    ∀ z, Fits z → ReaderOk z → ¬ encodeSnapshot z <+: bs := by
  constructor
  · rintro h z hf hok ⟨tail, rfl⟩
    rw [takesBack_readSnapshot hf hok tail] at h
    simp at h
  · intro h
    by_contra hne
    obtain ⟨⟨z, rest⟩, hz⟩ := Option.ne_none_iff_exists'.1 hne
    obtain ⟨hbs, hf, hok⟩ := readSnapshot_some hz
    exact h z hf hok ⟨rest, hbs.symm⟩

/-- The scan returns what the bytes spell. -/
theorem records_eq_iff {bs : Bytes} {ys : List (List ManifestEntry)} :
    records readSnapshot bs = ys ↔ Spells bs ys := by
  constructor
  · rintro rfl
    obtain ⟨rest, hbs, hrest⟩ := records_split consumes_readSnapshot reencodes_readSnapshot bs
    refine ⟨forall_mem_records consumes_readSnapshot fun _ _ _ h => (readSnapshot_some h).2, rest,
      hbs, readSnapshot_eq_none_iff.1 hrest⟩
  · rintro ⟨hys, rest, rfl, hrest⟩
    rw [records_readSnapshot_append (fun y hy => (hys y hy).1) (fun y hy => (hys y hy).2),
      records_stop (readSnapshot_eq_none_iff.2 hrest), List.append_nil]

/-- What is loaded is the last snapshot that the bytes from the torn tail on spell, and without
    one the last complete snapshot before it. -/
theorem loadLatest_tornFile {done later : List (List ManifestEntry)} {torn : Bytes}
    (hf : ∀ s ∈ done, Fits s) (hok : ∀ s ∈ done, ReaderOk s) (hlater : later ≠ [])
    {ys : List (List ManifestEntry)} (hys : Spells (torn ++ later.flatMap encodeSnapshot) ys) :
    loadLatest (appendAll (tornFile done torn) later) = (done ++ ys).getLastD [] := by
  rw [appendAll_eq _ _ hlater, tornFile, loadLatest]
  simp only [Option.getD_some, List.append_assoc]
  rw [records_readSnapshot_append hf hok, records_eq_iff.2 hys]

theorem getLastD_append_cons (done ys : List (List ManifestEntry)) (y d : List ManifestEntry) :
    (done ++ y :: ys).getLastD d = (y :: ys).getLast (List.cons_ne_nil y ys) := by
  rw [List.getLastD_eq_getLast?, List.getLast?_append_of_ne_nil _ (List.cons_ne_nil y ys),
    List.getLast?_eq_some_getLast (List.cons_ne_nil y ys), Option.getD_some]

/-- The first record spelled reaches beyond the torn bytes: within them there is none. -/
theorem Spells.beyond_torn {cut : List ManifestEntry} {torn tail : Bytes} (hcut : WithinLimits cut)
    (ht : torn <+: encodeSnapshot cut) (hstrict : torn ≠ encodeSnapshot cut)
    {y : List ManifestEntry} {ys : List (List ManifestEntry)} (h : Spells (torn ++ tail) (y :: ys)) :
    torn.length < (encodeSnapshot y).length := by
  by_contra hle
  obtain ⟨hok, rest, hbs, -⟩ := h
  have hy := hok y List.mem_cons_self
  have hpre : encodeSnapshot y <+: torn := by
    refine List.prefix_of_prefix_length_le ⟨ys.flatMap encodeSnapshot ++ rest, ?_⟩
      (List.prefix_append torn tail) (not_lt.1 hle)
    rw [hbs, List.flatMap_cons, List.append_assoc]
  exact readSnapshot_eq_none_iff.1
    (refusesTorn_readSnapshot hcut.fits hcut.readerOk torn ht hstrict) y hy.1 hy.2 hpre

/-- `last` is loaded from the file, and whatever directory the file is the MANIFEST of, `DB::open`
    keeps every table that `last` names and has it in its version. -/
def Restored (file : Option Bytes) (last : List ManifestEntry) : Prop :=
  loadLatest file = last ∧
    ∀ opts coins dir db, dir.manifest = file → DB.open opts coins dir = .ok db →
      ∀ entry ∈ last, ∀ n table, dir.find entry.number = some (n, table) →
        db.dir.find entry.number = some (n, table) ∧ ∃ fm ∈ db.version.allFiles, fm.number = n

/-- An open keeps and lists what the snapshot it loads names. -/
theorem restored_loadLatest {file : Bytes} : Restored (some file) (loadLatest (some file)) := by
  refine ⟨rfl, fun opts coins dir db hman hopen entry hentry n table hfind => ?_⟩
  have hlive : DB.liveEntries dir = loadLatest (some file) := by
    rw [DB.liveEntries, hman, if_neg fun h => by simpa using h.2]
  obtain ⟨files, hfiles, rfl⟩ := DB.open_inv hopen
  rw [← hlive] at hentry
  obtain ⟨fm, hfm, hn⟩ := openFiles_mem hfiles hentry hfind
  refine ⟨?_, fm, openVersion_mem hfm, hn⟩
  show (dir.execAll (DB.openOps dir)).sst.find? _ = _
  rw [(execAll_openOps_sst dir).1, List.find?_filter, ← hfind, Dir.find]
  congr 1
  funext p
  -- a file with the number of the entry is no orphan
  by_cases hp : (p.1 : Int) = entry.number.toInt
  · have hkept : p.1 ∉ DB.orphans dir (DB.liveEntries dir) := fun horphan =>
      (Openable.mem_orphans.1 horphan).2 (List.mem_map.2 ⟨entry, hentry, hp.symm⟩)
    simp [hp, hkept]
  · simp [hp]

/-- **Recovery after a torn MANIFEST append.** Complete snapshots `done`, a strict prefix `torn` of
    one more record, then the snapshots `later` appended through `Manifest::open`. The last of
    them is restored in two cases only. Either no readable record begins at the torn bytes and
    the last snapshot repeats the last complete one (the empty list if there was none). Or the
    torn bytes and the appended records together spell, by a coincidence of the CRC, other
    records: the first reaches from the torn bytes into the records behind them, and the last
    one spelled is the snapshot appended last. -/
theorem restored_after_torn (done later : List (List ManifestEntry)) (cut : List ManifestEntry)
    (torn : Bytes) (hd : ∀ s ∈ done, WithinLimits s) (hcut : WithinLimits cut)
    (ht : torn <+: encodeSnapshot cut) (hstrict : torn ≠ encodeSnapshot cut)
    (hlater : later ≠ []) :
    Restored (appendAll (tornFile done torn) later) (later.getLast hlater) ↔
      (Spells (torn ++ later.flatMap encodeSnapshot) [] ∧
        later.getLast hlater = done.getLastD []) ∨
      ∃ y ys, Spells (torn ++ later.flatMap encodeSnapshot) (y :: ys) ∧
        torn.length < (encodeSnapshot y).length ∧
        later.getLast hlater = (y :: ys).getLast (List.cons_ne_nil y ys) := by
  obtain ⟨file, hfile⟩ : ∃ file, appendAll (tornFile done torn) later = some file :=
    ⟨_, appendAll_eq _ _ hlater⟩
  have hload : Restored (appendAll (tornFile done torn) later) (later.getLast hlater) ↔
      loadLatest (appendAll (tornFile done torn) later) = later.getLast hlater := by
    rw [hfile]
    exact ⟨fun h => h.1, fun h => h ▸ restored_loadLatest⟩
  rw [hload]
  have hspelled := fun ys => @loadLatest_tornFile done later torn (fun s hs => (hd s hs).fits)
    (fun s hs => (hd s hs).readerOk) hlater ys
  constructor
  · intro h
    cases hys : records readSnapshot (torn ++ later.flatMap encodeSnapshot) with
    | nil =>
      have hspell := records_eq_iff.1 hys
      rw [hspelled _ hspell, List.append_nil] at h
      exact Or.inl ⟨hspell, h.symm⟩
    | cons y ys =>
      have hspell := records_eq_iff.1 hys
      rw [hspelled _ hspell, getLastD_append_cons] at h
      exact Or.inr ⟨y, ys, hspell, hspell.beyond_torn hcut ht hstrict, h.symm⟩
  · rintro (⟨hspell, hlast⟩ | ⟨y, ys, hspell, -, hlast⟩)
    · rw [hspelled _ hspell, List.append_nil, hlast]
    · rw [hspelled _ hspell, getLastD_append_cons, hlast]

/-- One table committed, the record of two tables cut after nine bytes, then the record of the
    first table again. -/
theorem restored_after_torn_repeat :
    Restored (appendAll (tornFile [[⟨1, 0, [97], [98]⟩]]
        ((encodeSnapshot [⟨1, 0, [97], [98]⟩, ⟨2, 0, [97], [99]⟩]).take 9))
      [[⟨1, 0, [97], [98]⟩]]) [⟨1, 0, [97], [98]⟩] :=
  (restored_after_torn [[⟨1, 0, [97], [98]⟩]] [[⟨1, 0, [97], [98]⟩]]
    [⟨1, 0, [97], [98]⟩, ⟨2, 0, [97], [99]⟩]
    ((encodeSnapshot [⟨1, 0, [97], [98]⟩, ⟨2, 0, [97], [99]⟩]).take 9)
    (by decide) (by decide) (List.take_prefix _ _) (by decide +kernel) (by simp)).2
    (Or.inl ⟨records_eq_iff.1 (records_stop (by decide +kernel)), rfl⟩)

/-- A directory with two tables and a torn record between the snapshots of its MANIFEST: the
    record of the two tables was cut after nine bytes and written again after a restart. -/
def tornDir : Dir :=
  { wal := some []
    manifest := appendAll (tornFile [[⟨1, 0, [97], [98]⟩]]
      ((encodeSnapshot [⟨1, 0, [97], [98]⟩, ⟨2, 0, [97], [99]⟩]).take 9))
      [[⟨1, 0, [97], [98]⟩, ⟨2, 0, [97], [99]⟩]]
    sst := [(1, tableFile [⟨[97], [], false, 1⟩, ⟨[98], [], false, 2⟩]),
      (2, tableFile [⟨[97], [], false, 3⟩, ⟨[99], [], false, 4⟩])] }

/-- At the next restart only the first table is loaded, and the second is removed. -/
theorem torn_loses_table :
    ∃ (done later : List (List ManifestEntry)) (cut : List ManifestEntry) (torn : Bytes)
      (hlater : later ≠ []), (∀ s ∈ done, WithinLimits s) ∧ WithinLimits cut ∧
      (∀ s ∈ later, WithinLimits s) ∧ torn <+: encodeSnapshot cut ∧ torn ≠ [] ∧
      torn ≠ encodeSnapshot cut ∧
      loadLatest (appendAll (tornFile done torn) later) ≠ later.getLast hlater ∧
      ∃ dir db, dir.manifest = appendAll (tornFile done torn) later ∧
        DB.open {} [] dir = .ok db ∧ ∃ entry ∈ later.getLast hlater,
          (dir.find entry.number).isSome ∧ db.dir.find entry.number = none := by
  refine ⟨[[⟨1, 0, [97], [98]⟩]], [[⟨1, 0, [97], [98]⟩, ⟨2, 0, [97], [99]⟩]],
    [⟨1, 0, [97], [98]⟩, ⟨2, 0, [97], [99]⟩],
    (encodeSnapshot [⟨1, 0, [97], [98]⟩, ⟨2, 0, [97], [99]⟩]).take 9, by simp, by decide,
    by decide, by decide, List.take_prefix _ _, by decide +kernel, by decide +kernel,
    by decide +kernel, tornDir, ?_⟩
  have hopen : ((DB.open {} [] tornDir).toOption.map fun db => db.dir.find 2) = some none := by
    decide +kernel
  obtain ⟨db, hdb, hfind⟩ := Option.map_eq_some_iff.1 hopen
  exact ⟨db, rfl, eq_ok_of_toOption hdb, ⟨2, 0, [97], [99]⟩, by simp, by decide +kernel, hfind⟩

end Keystone.Manifest
