/-
  What the parts of the state hold, as entry lists.

  * `FileMeta.contents` reads a live file; `FileMeta.Ok` says that the file is one the writer
    made of these entries, with their true key range, and that it can be read.
  * `buildTable_spec`: every table the engine writes is of that kind, if its blocks can be read.
  * `entries_applyAll`: the memtable after a batch or a replay.
-/
import Keystone.Engine

namespace Keystone

/-! ## Entries that survive a table -/

/-- The entry is read back as it was written: a tombstone has no value. -/
def Entry.Storable (e : Entry) : Prop := e.stored = e

instance (e : Entry) : Decidable e.Storable := inferInstanceAs (Decidable (_ = _))

theorem map_stored {es : List Entry} (h : ∀ e ∈ es, e.Storable) : es.map Entry.stored = es := by
  calc es.map Entry.stored = es.map id := List.map_congr_left h
    _ = es := List.map_id es

theorem Wal.Record.storable (r : Wal.Record) : r.entry.Storable := by
  unfold Wal.Record.entry
  split
  · rfl
  · rfl

@[simp] theorem Wal.Record.entry_seq (r : Wal.Record) : r.entry.seq = r.seq := by
  unfold Wal.Record.entry
  split <;> rfl

@[simp] theorem Wal.Record.entry_key (r : Wal.Record) : r.entry.key = r.key := by
  unfold Wal.Record.entry
  split <;> rfl

theorem mem_batchRecords {nextSeq : UInt64} {ops : List Op} {r : Wal.Record}
    (h : r ∈ batchRecords nextSeq ops) : ∃ op ∈ ops, ∃ seq, r = op.record seq := by
  induction ops generalizing nextSeq with
  | nil => simp [batchRecords] at h
  | cons op ops ih =>
    rcases List.mem_cons.1 h with rfl | h
    · exact ⟨op, List.mem_cons_self, nextSeq, rfl⟩
    · obtain ⟨op', hop, hr⟩ := ih h
      exact ⟨op', List.mem_cons_of_mem op hop, hr⟩

theorem batchRecords_fits {nextSeq : UInt64} {ops : List Op} (h : ∀ op ∈ ops, op.Fits) :
    ∀ r ∈ batchRecords nextSeq ops, r.Fits := by
  intro r hr
  obtain ⟨op, hop, seq, rfl⟩ := mem_batchRecords hr
  exact h op hop

/-! ## The memtable -/

namespace Memtable

theorem entries_applyRecord (m : Memtable) (r : Wal.Record) (coins : List Bool) :
    (m.applyRecord r coins).entries = insertEntry r.entry m.entries := by
  unfold applyRecord Wal.Record.entry
  split
  · exact entries_insert m _ coins
  · exact entries_insert m _ coins

/-- A batch adds exactly its entries. -/
theorem entries_applyAll (m : Memtable) (rs : List Wal.Record) (coins : List (List Bool)) :
    (m.applyAll rs coins).entries.Perm (rs.map Wal.Record.entry ++ m.entries) := by
  induction rs generalizing m coins with
  | nil => exact List.Perm.refl _
  | cons r rs ih =>
    have h := ih (m.applyRecord r (coins.headD [])) coins.tail
    rw [entries_applyRecord] at h
    refine h.trans ?_
    rw [List.map_cons, List.cons_append]
    exact ((insertEntry_perm r.entry m.entries).append_left _).trans List.perm_middle

theorem mem_applyAll {m : Memtable} {rs : List Wal.Record} {coins : List (List Bool)} {e : Entry} :
    e ∈ (m.applyAll rs coins).entries ↔ (∃ r ∈ rs, r.entry = e) ∨ e ∈ m.entries := by
  rw [(m.entries_applyAll rs coins).mem_iff, List.mem_append, List.mem_map]

@[simp] theorem entries_fresh : fresh.entries = [] := entries_new 12 (by decide)

end Memtable

/-! ## Live files -/

/-- The entries of a live file. -/
def FileMeta.contents (fm : FileMeta) : List Entry :=
  match fm.table.entries with
  | .ok es => es
  | .error _ => []

/-- The file is the one the writer makes of its entries, and its key range is the true one. -/
structure FileMeta.Ok (fm : FileMeta) : Prop where
  table : fm.table = tableOf fm.contents
  fits : TableFits fm.contents
  storable : ∀ e ∈ fm.contents, e.Storable
  sorted : SortedLe fm.contents
  ne_nil : fm.contents ≠ []
  smallest : fm.smallestKey = headKey fm.contents
  largest : fm.largestKey = lastKey fm.contents

/-- No length of an entry in a table that can be read is cut by its cast. -/
theorem TableFits.entry_fits {es : List Entry} (h : TableFits es) {e : Entry} (he : e ∈ es) :
    e.Fits := by
  rw [← flatten_blocksOf es] at he
  obtain ⟨b, hb, he⟩ := List.mem_flatten.1 he
  exact (h.blocks b hb).fits he

theorem FileMeta.Ok.entries {fm : FileMeta} (h : fm.Ok) : fm.table.entries = .ok fm.contents := by
  rw [h.table, entries_tableOf h.fits.blocks h.fits.file, map_stored h.storable]

theorem FileMeta.Ok.open {fm : FileMeta} (h : fm.Ok) :
    SSTable.open (tableFile fm.contents) = .ok fm.table := by
  rw [open_tableFile h.fits.toOpens h.fits.file, h.table]

theorem FileMeta.Ok.key_mem {fm : FileMeta} (h : fm.Ok) {e : Entry} (he : e ∈ fm.contents) :
    fm.smallestKey ≤ e.key ∧ e.key ≤ fm.largestKey := by
  rw [h.smallest, h.largest]
  exact ⟨headKey_le h.sorted.keys he, le_lastKey h.sorted.keys he⟩

/-- When the writer makes a table of a list that can be opened, and which one. -/
theorem buildTable_iff {number : Nat} {level : Level} {es : List Entry} {file : Bytes}
    {fm : FileMeta} : DB.buildTable number level es = some (file, fm) ↔
      (tableFile es).length ≤ maxFileSize ∧ Opens es ∧ file = tableFile es ∧
        fm = ⟨number, level, headKey es, lastKey es, tableOf es⟩ := by
  obtain ⟨h1, h2⟩ := addAll_keys es
  have hfinish : (SSTableWriter.new.addAll es).finish = _ := writeTable_eq es
  unfold DB.buildTable
  by_cases hmax : (tableFile es).length ≤ maxFileSize
  · rw [if_pos hmax] at hfinish
    simp only [hfinish, h1, h2]
    cases hopen : SSTable.open (tableFile es) with
    | error fault =>
      refine ⟨nofun, fun h => ?_⟩
      rw [open_tableFile h.2.1 hmax] at hopen
      cases hopen
    | ok t =>
      obtain ⟨hopens, rfl⟩ := (open_tableFile_iff hmax).1 hopen
      rw [Option.some.injEq, Prod.mk.injEq]
      exact ⟨fun h => ⟨hmax, hopens, h.1.symm, h.2.symm⟩, fun h => ⟨h.2.2.1.symm, h.2.2.2.symm⟩⟩
  · rw [if_neg hmax] at hfinish
    simp only [hfinish]
    exact ⟨nofun, fun h => absurd h.1 hmax⟩

/-- What is read back of a table made of `es`. -/
def contentsOf (es : List Entry) : List Entry := (readable (blocksOf es)).flatten.map Entry.stored

theorem contentsOf_isPrefix (es : List Entry) : contentsOf es <+: es.map Entry.stored := by
  have h := (List.IsPrefix.flatten (readable_isPrefix (blocksOf es))).map Entry.stored
  rwa [flatten_blocksOf] at h

theorem length_contentsOf_le (es : List Entry) : (contentsOf es).length ≤ es.length := by
  have h := (contentsOf_isPrefix es).length_le
  rwa [List.length_map] at h

theorem contentsOf_stored {es : List Entry} (hfit : BlocksFit es) :
    contentsOf es = es.map Entry.stored := by
  rw [contentsOf, readable_eq_self hfit, flatten_blocksOf]

/-- Nothing is missing exactly if every block can be read. -/
theorem length_contentsOf {es : List Entry} : (contentsOf es).length = es.length ↔ BlocksFit es := by
  constructor
  · intro h
    refine blockFits_of_length (fun b hb => cutBlocks_ne_nil hb) ?_
    rw [contentsOf, List.length_map] at h
    rw [flatten_blocksOf, h]
  · intro h
    rw [contentsOf_stored h, List.length_map]

theorem contentsOf_eq {es : List Entry} (hst : ∀ e ∈ es, e.Storable) (hfit : BlocksFit es) :
    contentsOf es = es := by
  rw [contentsOf_stored hfit, map_stored hst]

/-- A table the engine builds, of any entries, and what is read back of it. -/
theorem buildTable_contents {number : Nat} {level : Level} {es : List Entry} {file : Bytes}
    {fm : FileMeta} (h : DB.buildTable number level es = some (file, fm)) :
    file = tableFile es ∧ fm = ⟨number, level, headKey es, lastKey es, tableOf es⟩ ∧
      fm.table.entries = .ok fm.contents ∧ fm.contents = contentsOf es := by
  obtain ⟨hmax, -, rfl, rfl⟩ := buildTable_iff.1 h
  refine ⟨rfl, rfl, ?_, ?_⟩ <;> simp only [FileMeta.contents, entries_readable hmax, contentsOf]

/-- **Every table the engine builds** of blocks that can be read holds the entries it was built
    of. -/
theorem buildTable_spec {number : Nat} {level : Level} {es : List Entry} {file : Bytes}
    {fm : FileMeta} (hne : es ≠ []) (hs : SortedLe es) (hst : ∀ e ∈ es, e.Storable)
    (hfit : BlocksFit es) (h : DB.buildTable number level es = some (file, fm)) :
    file = tableFile es ∧ fm.number = number ∧ fm.level = level ∧ fm.contents = es ∧ fm.Ok := by
  obtain ⟨rfl, rfl, -, hc⟩ := buildTable_contents h
  obtain ⟨hmax, hopens, -⟩ := buildTable_iff.1 h
  rw [contentsOf_eq hst hfit] at hc
  refine ⟨rfl, rfl, rfl, hc, ?_⟩
  constructor <;> rw [hc]
  · exact ⟨hopens, hmax, hfit⟩
  · exact hst
  · exact hs
  · exact hne

end Keystone
