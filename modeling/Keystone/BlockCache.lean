/-
  The block cache and the numbers it is keyed by.

  `SSTable::read_block` asks the shared `BlockCache` for the block under the number of its table
  and its offset, and loads it from the file if it is not there. The number is parsed back from
  the name of the file; a block stays in the cache when its file is long gone. `Shared` is the
  engine together with the cache and any number of readers. A reader holds the tables of a
  version; a read is its two critical sections and the load between them, as steps of their own.

  * `fileNumber_sstPath`: the number in a name is the one it was made of.
  * `DB.tableStep`: what a step of the engine can do to the tables and their numbers.
  * `cached_reads_iff`: every read returns what a direct read returns, and no number is given to
    two tables, exactly if `max_num + 1` does not overflow at the open or the numbers allocated
    after it do not reach one that is taken.
  * `number_reused`: they can reach one at once.
-/
import Keystone.Lib.LruCache
import Keystone.Provenance

namespace Keystone

open Frame SSTableWriter

/-! ## File names -/

/-- `sst_path`, from the last `/` on: `%06d.sst`. -/
def sstPath (num : Nat) : List Char :=
  List.replicate (6 - (Nat.toDigits 10 num).length) '0' ++ Nat.toDigits 10 num ++
    ['.', 's', 's', 't']

/-- `std::filesystem::path::stem`: a name up to its last dot. -/
def stem (name : List Char) : List Char :=
  match name.reverse.dropWhile (· ≠ '.') with
  | _ :: c :: rest => (c :: rest).reverse
  | _ => name

/-- `std::stoi`; `none` is an exception. What follows the digits is ignored. -/
def stoi (str : List Char) : Option Int :=
  let str := str.dropWhile fun c => c = ' ' ∨ (9 ≤ c.toNat ∧ c.toNat ≤ 13)
  let digits := (if str.head? = some '-' ∨ str.head? = some '+' then str.tail else str).takeWhile
    Char.isDigit
  let value : Int := Nat.ofDigitChars 10 digits 0
  let value := if str.head? = some '-' then -value else value
  if digits ≠ [] ∧ -2 ^ 31 ≤ value ∧ value < 2 ^ 31 then some value else none

/-- `number_`, as `SSTable::open` reads it off the name of the file. -/
def fileNumber (name : List Char) : Int := (stoi (stem name)).getD 0

theorem stem_append_sst {ds : List Char} (hne : ds ≠ []) :
    stem (ds ++ ['.', 's', 's', 't']) = ds := by
  obtain ⟨c, rest, hrev⟩ := List.exists_cons_of_ne_nil (List.reverse_ne_nil_iff.2 hne)
  have hdrop : (ds ++ ['.', 's', 's', 't']).reverse.dropWhile (· ≠ '.') = '.' :: c :: rest := by
    rw [List.reverse_append, hrev]
    rfl
  unfold stem
  rw [hdrop]
  show (c :: rest).reverse = ds
  rw [← hrev, List.reverse_reverse]

/-- A string of digits is read to its end. -/
theorem stoi_digits {ds : List Char} (hne : ds ≠ []) (hd : ∀ c ∈ ds, c.isDigit = true)
    (hlt : Nat.ofDigitChars 10 ds 0 < 2 ^ 31) :
    stoi ds = some (Nat.ofDigitChars 10 ds 0 : Nat) := by
  obtain ⟨c, rest, rfl⟩ := List.exists_cons_of_ne_nil hne
  have hc : 48 ≤ c.toNat ∧ c.toNat ≤ 57 := by
    have h := hd c List.mem_cons_self
    simpa [Char.isDigit, UInt32.le_iff_toNat_le] using h
  have hspace : ¬ (c = ' ' ∨ (9 ≤ c.toNat ∧ c.toNat ≤ 13)) := by
    rintro (rfl | h)
    · exact absurd hc.1 (by decide)
    · omega
  have hsign : ¬ ((c :: rest).head? = some '-' ∨ (c :: rest).head? = some '+') := by
    rintro (h | h) <;> obtain rfl := Option.some.inj h <;> exact absurd hc.1 (by decide)
  have hminus : ¬ (c :: rest).head? = some '-' := fun h => hsign (Or.inl h)
  have htake : (c :: rest).takeWhile Char.isDigit = c :: rest := List.takeWhile_eq_self_iff.2 hd
  unfold stoi
  rw [List.dropWhile_cons_of_neg (by simpa using hspace)]
  simp only [if_neg hsign, if_neg hminus, htake]
  exact if_pos ⟨hne, by omega, by exact_mod_cast hlt⟩

theorem ofDigitChars_replicate_zero (n : Nat) (ds : List Char) :
    Nat.ofDigitChars 10 (List.replicate n '0' ++ ds) 0 = Nat.ofDigitChars 10 ds 0 := by
  induction n with
  | zero => rfl
  | succ n ih => exact ih

/-- **The number in a file's name** is the one the name was made of. -/
theorem fileNumber_sstPath {num : Nat} (h : num < 2 ^ 31) : fileNumber (sstPath num) = num := by
  have hval : Nat.ofDigitChars 10 (List.replicate (6 - (Nat.toDigits 10 num).length) '0' ++
      Nat.toDigits 10 num) 0 = num := by
    rw [ofDigitChars_replicate_zero, Nat.ofDigitChars_ten_toDigits]
  have hne : List.replicate (6 - (Nat.toDigits 10 num).length) '0' ++ Nat.toDigits 10 num ≠ [] :=
    fun he => Nat.toDigits_ne_nil (List.append_eq_nil_iff.1 he).2
  have hdigits : ∀ c ∈ List.replicate (6 - (Nat.toDigits 10 num).length) '0' ++
      Nat.toDigits 10 num, c.isDigit = true := by
    intro c hc
    rcases List.mem_append.1 hc with hc | hc
    · rw [List.eq_of_mem_replicate hc]
      rfl
    · exact Nat.isDigit_of_mem_toDigits (by norm_num) (by norm_num) hc
  unfold fileNumber sstPath
  rw [stem_append_sst hne, stoi_digits hne hdigits (hval.symm ▸ h), hval]
  rfl

example : sstPath 42 = ['0', '0', '0', '0', '4', '2', '.', 's', 's', 't'] := by decide

/-! ## Offsets -/

/-- No two blocks of a table begin at one offset. -/
def SSTable.Indexed (t : SSTable) : Prop := (t.index.map IndexEntry.offset).Nodup

theorem nodup_indexOf {off : Nat} {bs : List (List Entry)}
    (h : off + (bs.flatMap blockBytes).length ≤ maxFileSize) :
    (∀ ie ∈ indexOf off bs, off ≤ ie.offset.toNat) ∧
      ((indexOf off bs).map IndexEntry.offset).Nodup := by
  have hm : maxFileSize < 2 ^ 64 := by decide
  induction bs generalizing off with
  | nil => exact ⟨by simp [indexOf], List.nodup_nil⟩
  | cons b bs ih =>
    rw [List.flatMap_cons, List.length_append] at h
    have hpos : 0 < (blockBytes b).length := by
      rw [blockBytes, List.length_append]
      exact Nat.lt_of_lt_of_le (by decide : 0 < 4) (Nat.le_add_left _ _)
    have hoff : (UInt64.ofNat off).toNat = off := toNat_u64_of_lt (by omega)
    obtain ⟨hge, hnd⟩ := ih (show off + (blockBytes b).length + _ ≤ maxFileSize by omega)
    refine ⟨fun ie hie => ?_, List.nodup_cons.2 ⟨fun hmem => ?_, hnd⟩⟩
    · rcases List.mem_cons.1 hie with rfl | hie
      · exact hoff.ge
      · exact le_trans (Nat.le_add_right _ _) (hge ie hie)
    · obtain ⟨ie, hie, he⟩ := List.mem_map.1 hmem
      have hlt := hge ie hie
      rw [he, hoff] at hlt
      omega

theorem indexed_tableOf {es : List Entry} (hmax : (tableFile es).length ≤ maxFileSize) :
    (tableOf es).Indexed := by
  have hlen := tableFile_length_eq es
  have hblock : (blockPart es).length = ((blocksOf es).flatMap blockBytes).length := rfl
  exact (@nodup_indexOf 0 (blocksOf es) (by omega)).2

theorem SSTable.Of.indexed {P : List Entry → Prop} {t : SSTable} (h : t.Of P) : t.Indexed := by
  obtain ⟨es, rfl, hmax, -⟩ := h
  exact indexed_tableOf hmax

theorem indexed_of_buildTable {number : Nat} {level : Level} {es : List Entry} {file : Bytes}
    {fm : FileMeta} (h : DB.buildTable number level es = some (file, fm)) :
    fm.number = number ∧ fm.table.Indexed := by
  obtain ⟨hmax, -, -, rfl⟩ := buildTable_iff.1 h
  exact ⟨rfl, indexed_tableOf hmax⟩

/-! ## Tables and numbers -/

/-- The number `alloc_sst_number` returns in a step, if it is called. -/
def DB.allocates (db : DB) : Event → Option Nat
  | .startWriter => db.allocSst.map Prod.fst
  | ev => if db.flushes ev then db.allocSst.map Prod.fst else none

/-- What a step does to the tables and to their numbers. -/
inductive DB.TableStep (db db' : DB) (allocated : Option Nat) : Prop
  /-- No table is opened. -/
  | keeps (halloc : allocated = none) (hnext : db'.nextSst = db.nextSst)
      (htables : ∀ fm ∈ db'.openTables, fm ∈ db.openTables)
      (hwriter : ∀ n ∈ Job.writerNumbers db'.job, n ∈ Job.writerNumbers db.job)
  /-- A flush allocates a number and opens its table. -/
  | flushes (fm : FileMeta) (halloc : allocated = some db.nextSst)
      (hlt : db.nextSst < 2 ^ 31 - 1) (hnext : db'.nextSst = db.nextSst + 1)
      (hnumber : fm.number = db.nextSst) (hindexed : fm.table.Indexed)
      (htables : ∀ f ∈ db'.openTables, f ∈ db.openTables ∨ f = fm)
      (hwriter : Job.writerNumbers db'.job = Job.writerNumbers db.job)
  /-- A round allocates the number of an output. -/
  | begins (halloc : allocated = some db.nextSst) (hlt : db.nextSst < 2 ^ 31 - 1)
      (hnext : db'.nextSst = db.nextSst + 1) (htables : db'.openTables = db.openTables)
      (hwriter : Job.writerNumbers db'.job = [db.nextSst])
  /-- A round opens the output it has written. -/
  | finishes (fm : FileMeta) (halloc : allocated = none) (hnext : db'.nextSst = db.nextSst)
      (hnumber : fm.number ∈ Job.writerNumbers db.job) (hindexed : fm.table.Indexed)
      (htables : ∀ f ∈ db'.openTables, f ∈ db.openTables ∨ f = fm)
      (hwriter : Job.writerNumbers db'.job = [])

namespace DB

variable {db db' : DB}

/-- A step that leaves the version, the round and the counter alone. -/
theorem tableStep_same (hjob : db'.job = db.job) (hver : db'.version = db.version)
    (hnext : db'.nextSst = db.nextSst) : TableStep db db' none := by
  refine .keeps rfl hnext ?_ ?_
  · rw [openTables, openTables, hver, hjob]
    exact fun _ => id
  · rw [hjob]
    exact fun _ => id

theorem tableStep_flush (h : db.flush = some db') : TableStep db db'
    (if db.memtable.approxBytes ≠ 0 then db.allocSst.map Prod.fst else none) := by
  rcases flush_shape h with ⟨hz, rfl⟩ | ⟨hz, hlt, file, fm, hbuild, rfl⟩
  · rw [if_neg (not_not.2 hz)]
    exact tableStep_same rfl rfl rfl
  · obtain ⟨hnumber, hindexed⟩ := indexed_of_buildTable hbuild
    refine .flushes fm ?_ hlt rfl hnumber hindexed (fun f hf => ?_) rfl
    · rw [if_pos hz, allocSst, if_pos hlt]
      rfl
    · rw [openTables, List.mem_append, (allFiles_pushL0 _ _).mem_iff] at hf
      rw [openTables]
      simp only [List.mem_append, List.mem_singleton] at hf ⊢
      tauto

theorem tableStep_finishWriter (h : db.finishWriter = some db') : TableStep db db' none := by
  obtain ⟨job, chunks, number, chunk, outputs, file, fm, hj, hbuild, rfl⟩ := finishWriter_shape h
  obtain ⟨hnumber, hindexed⟩ := indexed_of_buildTable hbuild
  refine .finishes fm rfl rfl ?_ hindexed (fun f hf => ?_) rfl
  · rw [hj, hnumber]
    exact List.mem_cons_self
  · rw [openTables, hj]
    simp only [openTables, Job.outputsOf, Option.map_some, Option.getD_some, List.mem_append,
      List.mem_singleton] at hf ⊢
    tauto

theorem tableStep_commit (h : db.commit = some db') : TableStep db db' none := by
  obtain ⟨job, outputs, hj, ⟨-, rfl⟩ | ⟨-, rfl⟩⟩ := commit_inv h
  all_goals refine .keeps rfl rfl (fun f hf => ?_) (by simp [Job.writerNumbers])
  · exact List.mem_append_left _ ((List.mem_append.1 hf).resolve_right (by simp [Job.outputsOf]))
  · have hf' := (List.mem_append.1 hf).resolve_right (by simp [Job.outputsOf])
    rw [(allFiles_commit _ _ _).mem_iff, List.mem_append] at hf'
    rw [openTables, hj, List.mem_append]
    exact hf'.imp (fun hr => (mem_remaining.1 hr).1) id

/-- **One step of the engine**, within one instance. -/
theorem tableStep {ev : Event} (ho : ev.ofOpen = false) (h : db.step ev = some db') :
    TableStep db db' (db.allocates ev) := by
  cases ev with
  | assign ops =>
    obtain ⟨-, -, rfl⟩ := assign_inv h
    exact tableStep_same rfl rfl rfl
  | apply coins =>
    obtain ⟨-, rfl⟩ := apply_inv h
    exact tableStep_same rfl rfl rfl
  | flush => simpa [allocates, flushes] using tableStep_flush h
  | maybeFlush =>
    rcases maybeFlush_inv h with ⟨ht, h⟩ | ⟨ht, rfl⟩
    · simpa [allocates, flushes, ht] using tableStep_flush h
    · simpa [allocates, flushes, ht] using @tableStep_same db' db' rfl rfl rfl
  | getSnapshot | releaseSnapshot _ | compactCall | compactWake =>
    obtain ⟨_, _, _, _, rfl⟩ := calls_shape rfl h
    exact tableStep_same rfl rfl rfl
  | pick pq =>
    obtain ⟨-, hj, ⟨-, rfl⟩ | ⟨-, sources, -, rfl⟩⟩ := pick_shape h
    · exact tableStep_same rfl rfl rfl
    · refine .keeps rfl rfl ?_ ?_
      · simp [openTables, Job.outputsOf, hj]
      · simp [Job.writerNumbers]
  | startWriter =>
    obtain ⟨job, chunk, chunks, outputs, hj, hlt, rfl⟩ := startWriter_inv h
    refine .begins ?_ hlt rfl ?_ rfl
    · rw [allocates, allocSst, if_pos hlt]
      rfl
    · rw [openTables, openTables, hj]
      rfl
  | finishWriter => exact tableStep_finishWriter h
  | commit => exact tableStep_commit h
  | unlink number =>
    obtain ⟨-, rfl⟩ := unlink_inv h
    exact tableStep_same rfl rfl rfl
  | reopen opts coins => exact absurd ho.symm Bool.false_ne_true

/-- The counter goes up by one with every number that is allocated. -/
theorem TableStep.next {n : Option Nat} (h : TableStep db db' n) :
    (n = none ∧ db'.nextSst = db.nextSst) ∨
      (n = some db.nextSst ∧ db'.nextSst = db.nextSst + 1) := by
  cases h with
  | keeps halloc hnext => exact Or.inl ⟨halloc, hnext⟩
  | flushes fm halloc hlt hnext => exact Or.inr ⟨halloc, hnext⟩
  | begins halloc hlt hnext => exact Or.inr ⟨halloc, hnext⟩
  | finishes fm halloc hnext => exact Or.inl ⟨halloc, hnext⟩

end DB

/-- The numbers an instance that began at `first` has allocated: all up to its counter. -/
structure DB.Allocated (first : Nat) (allocated : List Nat) (db : DB) : Prop where
  first_le : first ≤ db.nextSst
  mem : ∀ n, n ∈ allocated ↔ first ≤ n ∧ n < db.nextSst
  nodup : allocated.Nodup

theorem DB.Allocated.step {first : Nat} {allocated : List Nat} {db db' : DB}
    (h : db.Allocated first allocated) {n : Option Nat} (hstep : DB.TableStep db db' n) :
    db'.Allocated first (allocated ++ n.toList) := by
  rcases hstep.next with ⟨rfl, hnext⟩ | ⟨rfl, hnext⟩
  · rw [Option.toList_none, List.append_nil]
    exact ⟨hnext ▸ h.first_le, hnext ▸ h.mem, h.nodup⟩
  · have hle := h.first_le
    refine ⟨by omega, fun m => ?_, List.nodup_append.2 ⟨h.nodup, List.nodup_singleton _, ?_⟩⟩
    · rw [Option.toList_some, List.mem_append, h.mem, List.mem_singleton]
      omega
    · rintro m hm m' hm' rfl
      rw [List.mem_singleton.1 hm', h.mem] at hm
      omega

/-- The tables opened so far, by an instance whose numbers begin at `first`, have numbers that were
    `taken` or that it has allocated. -/
structure DB.Numbered (taken : Nat → Prop) (first : Nat) (opened : List FileMeta) (db : DB) :
    Prop where
  tables : ∀ fm ∈ db.openTables, fm ∈ opened
  known : ∀ fm ∈ opened, taken fm.number ∨ first ≤ fm.number ∧ fm.number < db.nextSst
  bound : ∀ fm ∈ opened, fm.number < 2 ^ 31
  writer : ∀ n ∈ Job.writerNumbers db.job, (first ≤ n ∧ n < db.nextSst) ∧ n < 2 ^ 31 ∧
    ∀ fm ∈ opened, fm.number ≠ n
  unique : ∀ fm ∈ opened, ∀ fm' ∈ opened, fm.number = fm'.number → fm.table = fm'.table
  indexed : ∀ fm ∈ opened, fm.table.Indexed
  first_le : first ≤ db.nextSst

namespace DB.Numbered

variable {taken : Nat → Prop} {first : Nat} {opened : List FileMeta} {db db' : DB}

/-- A step that opens no table. -/
theorem same_opened (h : db.Numbered taken first opened) (hnext : db.nextSst ≤ db'.nextSst)
    (htables : ∀ f ∈ db'.openTables, f ∈ db.openTables)
    (hwriter : ∀ n ∈ Job.writerNumbers db'.job, (first ≤ n ∧ n < db'.nextSst) ∧ n < 2 ^ 31 ∧
      ∀ fm ∈ opened, fm.number ≠ n) :
    db'.Numbered taken first (opened ++ db'.openTables) := by
  have hmem : ∀ f ∈ opened ++ db'.openTables, f ∈ opened := fun f hf =>
    (List.mem_append.1 hf).elim id fun hf => h.tables f (htables f hf)
  refine ⟨fun f hf => List.mem_append_right _ hf, fun f hf => ?_,
    fun f hf => h.bound f (hmem f hf), fun n hn => ?_,
    fun f hf f' hf' => h.unique f (hmem f hf) f' (hmem f' hf'),
    fun f hf => h.indexed f (hmem f hf), le_trans h.first_le hnext⟩
  · exact (h.known f (hmem f hf)).imp_right fun hk => ⟨hk.1, lt_of_lt_of_le hk.2 hnext⟩
  · obtain ⟨h1, h2, h3⟩ := hwriter n hn
    exact ⟨h1, h2, fun f hf => h3 f (hmem f hf)⟩

/-- A step that opens `fm`, which has a number of its own. -/
theorem opened_step (h : db.Numbered taken first opened) (hnext : db.nextSst ≤ db'.nextSst)
    {fm : FileMeta} (htables : ∀ f ∈ db'.openTables, f ∈ db.openTables ∨ f = fm)
    (hknown : first ≤ fm.number ∧ fm.number < db'.nextSst) (hbound : fm.number < 2 ^ 31)
    (hindexed : fm.table.Indexed) (hfresh : ∀ f ∈ opened, f.number ≠ fm.number)
    (hwriter : ∀ n ∈ Job.writerNumbers db'.job, n ∈ Job.writerNumbers db.job ∧ fm.number ≠ n) :
    db'.Numbered taken first (opened ++ db'.openTables) := by
  have hmem : ∀ f ∈ opened ++ db'.openTables, f ∈ opened ∨ f = fm := fun f hf =>
    (List.mem_append.1 hf).elim Or.inl fun hf => (htables f hf).imp_left (h.tables f)
  refine ⟨fun f hf => List.mem_append_right _ hf, fun f hf => ?_, fun f hf => ?_, fun n hn => ?_,
    fun f hf f' hf' he => ?_, fun f hf => ?_, le_trans h.first_le hnext⟩
  · rcases hmem f hf with hf | rfl
    · exact (h.known f hf).imp_right fun hk => ⟨hk.1, lt_of_lt_of_le hk.2 hnext⟩
    · exact Or.inr hknown
  · rcases hmem f hf with hf | rfl
    · exact h.bound f hf
    · exact hbound
  · obtain ⟨hold, hne⟩ := hwriter n hn
    obtain ⟨hn1, hn2, hn3⟩ := h.writer n hold
    refine ⟨⟨hn1.1, lt_of_lt_of_le hn1.2 hnext⟩, hn2, fun f hf => ?_⟩
    rcases hmem f hf with hf | rfl
    · exact hn3 f hf
    · exact hne
  · rcases hmem f hf with hf | rfl <;> rcases hmem f' hf' with hf' | rfl
    · exact h.unique f hf f' hf' he
    · exact absurd he (hfresh f hf)
    · exact absurd he.symm (hfresh f' hf')
    · rfl
  · rcases hmem f hf with hf | rfl
    · exact h.indexed f hf
    · exact hindexed

/-- A number that is not taken is not that of an open table when it is allocated. -/
theorem next_fresh (h : db.Numbered taken first opened) (hfree : ¬ taken db.nextSst)
    {f : FileMeta} (hf : f ∈ opened) : f.number ≠ db.nextSst := by
  intro he
  rcases h.known f hf with hk | hk
  · exact hfree (he ▸ hk)
  · omega

/-- **The numbers stay apart** in every step that allocates none of the taken ones. -/
theorem step (h : db.Numbered taken first opened) {n : Option Nat}
    (hstep : DB.TableStep db db' n) (hfree : n = some db.nextSst → ¬ taken db.nextSst) :
    db'.Numbered taken first (opened ++ db'.openTables) := by
  have hle := h.first_le
  cases hstep with
  | keeps halloc hnext htables hwriter =>
    exact h.same_opened hnext.ge htables fun n hn => hnext ▸ h.writer n (hwriter n hn)
  | flushes fm halloc hlt hnext hnumber hindexed htables hwriter =>
    refine h.opened_step (by omega) htables (by omega) (by omega) hindexed (fun f hf => ?_)
      fun n hn => ?_
    · exact hnumber ▸ h.next_fresh (hfree halloc) hf
    · rw [hwriter] at hn
      have := (h.writer n hn).1
      exact ⟨hn, by omega⟩
  | begins halloc hlt hnext htables hwriter =>
    refine h.same_opened (by omega) (fun f hf => htables ▸ hf) fun n hn => ?_
    rw [hwriter, List.mem_singleton] at hn
    exact ⟨by omega, by omega, fun f hf => hn ▸ h.next_fresh (hfree halloc) hf⟩
  | finishes fm halloc hnext hnumber hindexed htables hwriter =>
    obtain ⟨h1, h2, h3⟩ := h.writer _ hnumber
    exact h.opened_step hnext.ge htables (hnext ▸ h1) h2 hindexed h3 (by rw [hwriter]; simp)

end DB.Numbered

section Opening

variable {opts : Options} {coins : List (List Bool)} {dir : Dir} {db : DB}

/-- The number is that of a file that is there or of one that is listed. -/
def Dir.Taken (dir : Dir) (n : Nat) : Prop :=
  n ∈ dir.sst.map Prod.fst ∨ ∃ entry ∈ Manifest.loadLatest dir.manifest, entry.number.toInt = n

instance (dir : Dir) (n : Nat) : Decidable (dir.Taken n) := inferInstanceAs (Decidable (_ ∨ _))

theorem le_maxNumber {n : Nat} (h : dir.Taken n) : n ≤ DB.maxNumber dir (DB.liveEntries dir) := by
  have hle := (le_foldl_max (dir.sst.map Prod.fst ++
    (DB.liveEntries dir).map fun entry => entry.number.toInt.toNat) 0).2
  rcases h with hn | ⟨entry, hentry, hn⟩
  · exact hle n (List.mem_append_left _ hn)
  · have hmem : entry ∈ DB.liveEntries dir := by
      rwa [DB.liveEntries, if_neg fun hc => List.ne_nil_of_mem hentry hc.1]
    refine hle n (List.mem_append_right _ (List.mem_map.2 ⟨entry, hmem, ?_⟩))
    rw [hn, Int.toNat_natCast]

/-- Where the numbers of an instance begin. -/
theorem open_nextSst (hopen : DB.open opts coins dir = .ok db) :
    db.nextSst = DB.nextNumber dir (DB.liveEntries dir) := by
  obtain ⟨files, -, rfl⟩ := DB.open_inv hopen
  rfl

/-- `max_num + 1` does not overflow, or the numbers from 1 on, up to `next`, are not taken. -/
def Dir.Roomy (dir : Dir) (next : Nat) : Prop :=
  DB.maxNumber dir (DB.liveEntries dir) < 2 ^ 31 - 1 ∨ ∀ n, 1 ≤ n → n < next → ¬ dir.Taken n

theorem Dir.Roomy.mono {next next' : Nat} (h : dir.Roomy next') (hle : next ≤ next') :
    dir.Roomy next :=
  h.imp_right fun hfree n h1 hn => hfree n h1 (lt_of_lt_of_le hn hle)

/-- Then no number from the first one on is taken, and otherwise one is. -/
theorem roomy_iff (hopen : DB.open opts coins dir = .ok db) {next : Nat} :
    dir.Roomy next ↔ ∀ n, db.nextSst ≤ n → n < next → ¬ dir.Taken n := by
  rw [open_nextSst hopen, DB.nextNumber, Dir.Roomy]
  split
  · rename_i hlt
    exact iff_of_true (Or.inl hlt) fun n hn _ hmem => by
      have := le_maxNumber hmem
      omega
  · rename_i hge
    exact or_iff_right hge

/-- **The instance at its open**: the tables of its version, and no number allocated. -/
theorem numbered_open (hdir : ∀ p ∈ dir.sst, FileOf (fun _ => True) p.2)
    (hopen : DB.open opts coins dir = .ok db) :
    db.Numbered dir.Taken db.nextSst db.openTables := by
  have hof := (DB.TablesOf.of_open hdir hopen).tables
  obtain ⟨files, hfiles, rfl⟩ := DB.open_inv hopen
  have hfile : ∀ fm ∈ (DB.openVersion files).allFiles ++ Job.outputsOf none, ∃ number : Int32,
      number.toInt = fm.number ∧ ∃ file, dir.find number = some (fm.number, file) ∧
        SSTable.open file = .ok fm.table := by
    intro fm hfm
    have hfm' := (List.mem_append.1 hfm).resolve_right (by simp [Job.outputsOf])
    obtain ⟨entry, -, file, hfind, ht⟩ := DB.mem_openFiles hfiles (mem_openVersion hfm')
    have hnum : (fm.number : Int) = entry.number.toInt := by simpa using List.find?_some hfind
    exact ⟨entry.number, hnum.symm, file, hfind, ht⟩
  refine ⟨fun _ => id, fun fm hfm => ?_, fun fm hfm => ?_, by simp [Job.writerNumbers],
    fun fm hfm fm' hfm' he => ?_, fun fm hfm => (hof fm hfm).indexed, le_rfl⟩
  · obtain ⟨number, -, file, hfind, -⟩ := hfile fm hfm
    exact Or.inl (Or.inl (List.mem_map_of_mem (List.mem_of_find?_eq_some hfind)))
  · obtain ⟨number, hnum, -⟩ := hfile fm hfm
    have := number.toInt_lt
    omega
  · -- files of one number are one file of the directory
    obtain ⟨number, hnum, file, hfind, ht⟩ := hfile fm hfm
    obtain ⟨number', hnum', file', hfind', ht'⟩ := hfile fm' hfm'
    have hsame : dir.find number = dir.find number' := by
      rw [Dir.find, Dir.find, hnum, hnum', he]
    rw [hsame, hfind'] at hfind
    obtain ⟨-, rfl⟩ := Prod.mk.inj (Option.some.inj hfind)
    exact Except.ok.inj (ht.symm.trans ht')

end Opening

/-! ## Readers -/

/-- `BlockCache::CacheKey`. -/
structure CacheKey where
  fileNumber : Int
  blockOffset : UInt64
  deriving DecidableEq

/-- The key under which `read_block` asks for a block. -/
def FileMeta.cacheKey (fm : FileMeta) (ie : IndexEntry) : CacheKey :=
  ⟨Keystone.fileNumber (sstPath fm.number), ie.offset⟩

/-- A direct read of the block `idx`. -/
def SSTable.readDirect (t : SSTable) (idx : Nat) : Option (Except Fault Bytes) :=
  t.index[idx]?.map t.readBlock

/-- Where a reader stands in `read_block`. -/
inductive ReadPc where
  | idle
  /-- `get_or_load` has not found the block. -/
  | missed (fm : FileMeta) (idx : Nat) (ie : IndexEntry)
  /-- The loader has returned it. -/
  | loaded (fm : FileMeta) (idx : Nat) (ie : IndexEntry) (block : Bytes)

/-- A thread in `get`, `scan` or a compaction round, with the tables of the version it holds. -/
structure BlockReader where
  files : List FileMeta := []
  pc : ReadPc := .idle

/-- A call of `read_block` that has returned. -/
structure BlockRead where
  file : FileMeta
  idx : Nat
  result : Except Fault Bytes

/-- The store and its readers. `opened` are all tables the instance has opened, `allocated` the
    numbers it has allocated, `returned` the reads so far. -/
structure Shared where
  db : DB
  cache : Option (LruCache.Cache CacheKey Bytes)
  readers : Nat → BlockReader := fun _ => {}
  opened : List FileMeta
  allocated : List Nat := []
  returned : List BlockRead := []

/-- One step of a thread. -/
inductive CacheEvent where
  | engine (ev : Event)
  /-- The reader takes the current version. -/
  | hold (r : Nat)
  /-- `read_block(idx)` of one of its tables, up to the end of the first critical section. -/
  | find (r file idx : Nat)
  /-- The loader. -/
  | load (r : Nat)
  /-- The second critical section. -/
  | insert (r : Nat)

namespace Shared

/-- An instance at its open; with no bytes for the cache there is none. -/
def start (blockCacheBytes : UInt64) (db : DB) : Shared where
  db := db
  cache := if blockCacheBytes > 0 then some { capacity := blockCacheBytes.toNat } else none
  opened := db.openTables

def setPc (s : Shared) (r : Nat) (pc : ReadPc) : Shared :=
  { s with readers := Function.update s.readers r { s.readers r with pc := pc } }

/-- The call returns. -/
def answer (s : Shared) (r : Nat) (fm : FileMeta) (idx : Nat) (result : Except Fault Bytes) :
    Shared :=
  { s.setPc r .idle with returned := ⟨fm, idx, result⟩ :: s.returned }

def hold (s : Shared) (r : Nat) : Option Shared :=
  match (s.readers r).pc with
  | .idle =>
    some { s with readers := Function.update s.readers r { files := s.db.version.allFiles } }
  | _ => none

/-- `read_block` without a cache, or `get_or_load` up to its loader. -/
def find (s : Shared) (r file idx : Nat) : Option Shared :=
  match (s.readers r).pc with
  | .idle => do
    let fm ← (s.readers r).files[file]?
    let ie ← fm.table.index[idx]?
    match s.cache with
    | none => some (s.answer r fm idx (fm.table.readBlock ie))
    | some c =>
      match c.touch (fm.cacheKey ie) with
      | some (block, c) => some ({ s with cache := some c }.answer r fm idx (.ok block))
      | none => some (s.setPc r (.missed fm idx ie))
  | _ => none

/-- The loader; its exception leaves `get_or_load`. -/
def load (s : Shared) (r : Nat) : Option Shared :=
  match (s.readers r).pc with
  | .missed fm idx ie =>
    match fm.table.readBlock ie with
    | .error fault => some (s.answer r fm idx (.error fault))
    | .ok block => some (s.setPc r (.loaded fm idx ie block))
  | _ => none

/-- The rest of `get_or_load`: another reader may have put the block there in the meantime. -/
def insert (s : Shared) (r : Nat) : Option Shared :=
  match (s.readers r).pc, s.cache with
  | .loaded fm idx ie block, some c =>
    let (block, c) := c.insert (fm.cacheKey ie) block block.length
    some ({ s with cache := some c }.answer r fm idx (.ok block))
  | _, _ => none

/-- A step of the engine within the instance. -/
def engine (s : Shared) (ev : Event) : Option Shared :=
  if ev.ofOpen then none
  else (s.db.step ev).map fun db => { s with
    db := db
    opened := s.opened ++ db.openTables
    allocated := s.allocated ++ (s.db.allocates ev).toList }

def step (s : Shared) : CacheEvent → Option Shared
  | .engine ev => s.engine ev
  | .hold r => s.hold r
  | .find r file idx => s.find r file idx
  | .load r => s.load r
  | .insert r => s.insert r

end Shared

/-- `block` is what the block of some table with that key holds. -/
def Denotes (opened : List FileMeta) (key : CacheKey) (block : Bytes) : Prop :=
  ∃ fm ∈ opened, ∃ ie ∈ fm.table.index, fm.cacheKey ie = key ∧ fm.table.readBlock ie = .ok block

/-- A cache key has one block: the tables of one number are one, and so are their blocks of one
    offset. -/
theorem DB.Numbered.cacheKey_inj {taken : Nat → Prop} {first : Nat} {opened : List FileMeta}
    {db : DB} (h : db.Numbered taken first opened) {fm fm' : FileMeta} (hfm : fm ∈ opened)
    (hfm' : fm' ∈ opened) {ie ie' : IndexEntry} (hie : ie ∈ fm.table.index)
    (hie' : ie' ∈ fm'.table.index) (hkey : fm.cacheKey ie = fm'.cacheKey ie') :
    fm.table = fm'.table ∧ ie = ie' := by
  obtain ⟨hnum, hoff⟩ := CacheKey.mk.inj hkey
  rw [fileNumber_sstPath (h.bound fm hfm), fileNumber_sstPath (h.bound fm' hfm')] at hnum
  have htable := h.unique fm hfm fm' hfm' (by exact_mod_cast hnum)
  rw [← htable] at hie'
  exact ⟨htable, List.inj_on_of_nodup_map (h.indexed fm hfm) hie hie' hoff⟩

theorem DB.Numbered.eq_of_denotes {taken : Nat → Prop} {first : Nat} {opened : List FileMeta}
    {db : DB} (h : db.Numbered taken first opened) {fm : FileMeta} (hfm : fm ∈ opened)
    {ie : IndexEntry} (hie : ie ∈ fm.table.index) {block : Bytes}
    (hden : Denotes opened (fm.cacheKey ie) block) : fm.table.readBlock ie = .ok block := by
  obtain ⟨fm', hfm', ie', hie', hkey, hread⟩ := hden
  obtain ⟨htable, rfl⟩ := h.cacheKey_inj hfm' hfm hie' hie hkey
  exact htable ▸ hread

/-- A reader in the middle of a call is at a block of an opened table. -/
def ReadPc.Ok (opened : List FileMeta) : ReadPc → Prop
  | .idle => True
  | .missed fm idx ie => fm ∈ opened ∧ fm.table.index[idx]? = some ie
  | .loaded fm idx ie block =>
    fm ∈ opened ∧ fm.table.index[idx]? = some ie ∧ fm.table.readBlock ie = .ok block

/-- Every block in the cache is the one its key denotes, and every read so far was right. -/
structure Shared.Served (taken : Nat → Prop) (first : Nat) (s : Shared) : Prop where
  numbered : s.db.Numbered taken first s.opened
  cache : ∀ c ∈ s.cache, c.Wf ∧ c.Holds (Denotes s.opened)
  held : ∀ r, ∀ fm ∈ (s.readers r).files, fm ∈ s.opened
  pcs : ∀ r, (s.readers r).pc.Ok s.opened
  returned : ∀ read ∈ s.returned, read.file.table.readDirect read.idx = some read.result

namespace Shared.Served

open LruCache

variable {taken : Nat → Prop} {first : Nat} {s s' : Shared}

theorem start {blockCacheBytes : UInt64} {db : DB} (hnum : db.Numbered taken first db.openTables) :
    Served taken first (Shared.start blockCacheBytes db) := by
  refine ⟨hnum, fun c hc => ?_, by simp [Shared.start], fun r => trivial,
    by simp [Shared.start]⟩
  unfold Shared.start at hc
  split at hc
  · obtain rfl := Option.some.inj hc
    exact ⟨Cache.wf_empty _, by simp [Cache.Holds]⟩
  · simp at hc

theorem setPc (h : Served taken first s) {r : Nat} {pc : ReadPc} (hpc : pc.Ok s.opened) :
    Served taken first (s.setPc r pc) := by
  refine ⟨h.numbered, h.cache, fun r' => ?_, fun r' => ?_, h.returned⟩
  · by_cases he : r' = r
    · subst he
      simpa [Shared.setPc] using h.held r'
    · simpa [Shared.setPc, he] using h.held r'
  · by_cases he : r' = r
    · subst he
      simpa [Shared.setPc] using hpc
    · simpa [Shared.setPc, he] using h.pcs r'

/-- A right answer, with the cache as it is then. -/
theorem answer (h : Served taken first s) {r idx : Nat} {fm : FileMeta} {ie : IndexEntry}
    {result : Except Fault Bytes} (hie : fm.table.index[idx]? = some ie)
    (hresult : fm.table.readBlock ie = result) {cache : Option (Cache CacheKey Bytes)}
    (hcache : ∀ c ∈ cache, c.Wf ∧ c.Holds (Denotes s.opened)) :
    Served taken first ({ s with cache := cache }.answer r fm idx result) := by
  have hs : Served taken first { s with cache := cache } :=
    ⟨h.numbered, hcache, h.held, h.pcs, h.returned⟩
  have hset : Served taken first ({ s with cache := cache }.setPc r .idle) := hs.setPc trivial
  refine ⟨hset.numbered, hset.cache, hset.held, hset.pcs, fun read hread => ?_⟩
  rcases List.mem_cons.1 hread with rfl | hread
  · rw [SSTable.readDirect, hie, Option.map_some, hresult]
  · exact h.returned read hread

theorem hold (h : Served taken first s) {r : Nat} (hstep : s.hold r = some s') : Served taken first s' := by
  unfold Shared.hold at hstep
  split at hstep
  · obtain rfl := Option.some.inj hstep
    refine ⟨h.numbered, h.cache, fun r' => ?_, fun r' => ?_, h.returned⟩
    · by_cases he : r' = r
      · subst he
        simpa using fun fm hfm => h.numbered.tables fm (List.mem_append_left _ hfm)
      · simpa [he] using h.held r'
    · by_cases he : r' = r
      · subst he
        simp [ReadPc.Ok]
      · simpa [he] using h.pcs r'
  · exact nomatch hstep

theorem find (h : Served taken first s) {r file idx : Nat} (hstep : s.find r file idx = some s') :
    Served taken first s' := by
  unfold Shared.find at hstep
  split at hstep
  · obtain ⟨fm, hfm, hstep⟩ := Option.bind_eq_some_iff.1 hstep
    obtain ⟨ie, hie, hstep⟩ := Option.bind_eq_some_iff.1 hstep
    have hopened := h.held r fm (List.mem_of_getElem? hfm)
    split at hstep
    · obtain rfl := Option.some.inj hstep
      exact h.answer hie rfl h.cache
    · rename_i c hc
      obtain ⟨hwf, hholds⟩ := h.cache c hc
      split at hstep
      · -- a hit: the block is the one the key denotes
        rename_i block c' htouch
        obtain rfl := Option.some.inj hstep
        obtain ⟨hwf', hholds', hden⟩ := Cache.touch_spec hwf hholds htouch
        exact h.answer hie (h.numbered.eq_of_denotes hopened (List.mem_of_getElem? hie) hden)
          fun c₁ hc₁ => Option.mem_some_iff.1 hc₁ ▸ ⟨hwf', hholds'⟩
      · obtain rfl := Option.some.inj hstep
        exact h.setPc ⟨hopened, hie⟩
  · exact nomatch hstep

theorem load (h : Served taken first s) {r : Nat} (hstep : s.load r = some s') : Served taken first s' := by
  unfold Shared.load at hstep
  split at hstep
  · rename_i fm idx ie hpc
    obtain ⟨hopened, hie⟩ : fm ∈ s.opened ∧ fm.table.index[idx]? = some ie := by
      have := h.pcs r
      rwa [hpc] at this
    split at hstep
    · rename_i fault hread
      obtain rfl := Option.some.inj hstep
      exact h.answer hie hread h.cache
    · rename_i block hread
      obtain rfl := Option.some.inj hstep
      exact h.setPc ⟨hopened, hie, hread⟩
  · exact nomatch hstep

theorem insert (h : Served taken first s) {r : Nat} (hstep : s.insert r = some s') :
    Served taken first s' := by
  unfold Shared.insert at hstep
  split at hstep
  · rename_i fm idx ie block c hpc hc
    obtain ⟨hopened, hie, hread⟩ : fm ∈ s.opened ∧ fm.table.index[idx]? = some ie ∧
        fm.table.readBlock ie = .ok block := by
      have := h.pcs r
      rwa [hpc] at this
    have hmem := List.mem_of_getElem? hie
    obtain ⟨hwf, hholds⟩ := h.cache c hc
    obtain ⟨hwf', hholds', hden⟩ := Cache.insert_spec hwf hholds
      (⟨fm, hopened, ie, hmem, rfl, hread⟩ : Denotes s.opened (fm.cacheKey ie) block) block.length
    obtain rfl := Option.some.inj hstep
    exact h.answer hie (h.numbered.eq_of_denotes hopened hmem hden)
      fun c₁ hc₁ => Option.mem_some_iff.1 hc₁ ▸ ⟨hwf', hholds'⟩
  · exact nomatch hstep

theorem engine (h : Served taken first s) {ev : Event} (hstep : s.engine ev = some s')
    (hfree : s.db.nextSst < s'.db.nextSst → ¬ taken s.db.nextSst) : Served taken first s' := by
  unfold Shared.engine at hstep
  split at hstep
  · exact nomatch hstep
  · rename_i ho
    obtain ⟨db, hdb, rfl⟩ := Option.map_eq_some_iff.1 hstep
    have htables := DB.tableStep (by simpa using ho) hdb
    have hnum := h.numbered.step htables fun halloc => hfree <| by
      rcases htables.next with ⟨hnone, -⟩ | ⟨-, hnext⟩
      · exact nomatch hnone.symm.trans halloc
      · exact hnext.symm ▸ Nat.lt_succ_self _
    have hmono : ∀ fm ∈ s.opened, fm ∈ s.opened ++ db.openTables :=
      fun fm hfm => List.mem_append_left _ hfm
    refine ⟨hnum, fun c hc => ⟨(h.cache c hc).1, ?_⟩, fun r fm hfm => hmono fm (h.held r fm hfm),
      fun r => ?_, h.returned⟩
    · -- no key comes to denote another block
      exact (h.cache c hc).2.mono fun key block ⟨fm, hfm, hden⟩ => ⟨fm, hmono fm hfm, hden⟩
    · have hpc := h.pcs r
      show (s.readers r).pc.Ok (s.opened ++ db.openTables)
      cases hr : (s.readers r).pc with
      | idle => trivial
      | missed fm idx ie =>
        rw [hr] at hpc
        exact ⟨hmono fm hpc.1, hpc.2⟩
      | loaded fm idx ie block =>
        rw [hr] at hpc
        exact ⟨hmono fm hpc.1, hpc.2⟩

theorem step {ev : CacheEvent} (h : Served taken first s) (hstep : s.step ev = some s')
    (hfree : s.db.nextSst < s'.db.nextSst → ¬ taken s.db.nextSst) : Served taken first s' := by
  cases ev with
  | engine ev => exact h.engine hstep hfree
  | hold r => exact h.hold hstep
  | find r file idx => exact h.find hstep
  | load r => exact h.load hstep
  | insert r => exact h.insert hstep

end Shared.Served

/-- A step of a reader leaves the store alone. -/
theorem Shared.step_store {s s' : Shared} {ev : CacheEvent} (hstep : s.step ev = some s') :
    (∃ e, ev = .engine e) ∨ s'.db = s.db ∧ s'.allocated = s.allocated := by
  cases ev with
  | engine e => exact Or.inl ⟨e, rfl⟩
  | hold r =>
    simp only [Shared.step, Shared.hold] at hstep
    split at hstep
    · obtain rfl := Option.some.inj hstep
      exact Or.inr ⟨rfl, rfl⟩
    · exact nomatch hstep
  | find r file idx =>
    simp only [Shared.step, Shared.find] at hstep
    split at hstep
    · obtain ⟨fm, -, hstep⟩ := Option.bind_eq_some_iff.1 hstep
      obtain ⟨ie, -, hstep⟩ := Option.bind_eq_some_iff.1 hstep
      split at hstep
      · obtain rfl := Option.some.inj hstep
        exact Or.inr ⟨rfl, rfl⟩
      · split at hstep <;> obtain rfl := Option.some.inj hstep <;> exact Or.inr ⟨rfl, rfl⟩
    · exact nomatch hstep
  | load r =>
    simp only [Shared.step, Shared.load] at hstep
    split at hstep
    · split at hstep <;> obtain rfl := Option.some.inj hstep <;> exact Or.inr ⟨rfl, rfl⟩
    · exact nomatch hstep
  | insert r =>
    simp only [Shared.step, Shared.insert] at hstep
    split at hstep
    · obtain rfl := Option.some.inj hstep
      exact Or.inr ⟨rfl, rfl⟩
    · exact nomatch hstep

theorem DB.Allocated.shared_step {first : Nat} {s s' : Shared} {ev : CacheEvent}
    (h : s.db.Allocated first s.allocated) (hstep : s.step ev = some s') :
    s'.db.Allocated first s'.allocated ∧ s.db.nextSst ≤ s'.db.nextSst := by
  rcases Shared.step_store hstep with ⟨e, rfl⟩ | ⟨hdb, halloc⟩
  · simp only [Shared.step, Shared.engine] at hstep
    split at hstep
    · exact nomatch hstep
    · rename_i ho
      obtain ⟨db, hdb, rfl⟩ := Option.map_eq_some_iff.1 hstep
      have htables := DB.tableStep (by simpa using ho) hdb
      refine ⟨h.step htables, ?_⟩
      rcases htables.next with ⟨-, hnext⟩ | ⟨-, hnext⟩
      · exact hnext.ge
      · exact hnext.symm ▸ Nat.le_succ _
  · rw [hdb, halloc]
    exact ⟨h, le_rfl⟩

/-- What is claimed of a run so far: every read returned what a direct read returns; no number was
    allocated twice, none is that of a file present or listed at the open; and no cache key
    denotes two blocks. -/
structure Shared.Right (dir : Dir) (s : Shared) : Prop where
  reads : ∀ read ∈ s.returned, read.file.table.readDirect read.idx = some read.result
  once : s.allocated.Nodup
  fresh : ∀ n ∈ s.allocated, ¬ dir.Taken n
  keys : ∀ fm ∈ s.opened, ∀ fm' ∈ s.opened, ∀ ie ∈ fm.table.index, ∀ ie' ∈ fm'.table.index,
    fm.cacheKey ie = fm'.cacheKey ie' → fm.table = fm'.table ∧ ie = ie'

/-- **Reads through the cache are direct reads** in every run of one instance, and its numbers
    those of new tables, if and only if the instance does not come to a number that is taken:
    `max_num + 1` did not overflow, or the numbers from 1 up to its counter are free. -/
theorem cached_reads_iff {opts : Options} {coins : List (List Bool)} {dir : Dir} {db : DB}
    {blockCacheBytes : UInt64} {evs : List CacheEvent} {s : Shared}
    (hdir : ∀ p ∈ dir.sst, FileOf (fun _ => True) p.2) (hopen : DB.open opts coins dir = .ok db)
    (hrun : Steps.run Shared.step (Shared.start blockCacheBytes db) evs = some s) :
    s.Right dir ↔ dir.Roomy s.db.nextSst := by
  have hinv : s.db.Allocated db.nextSst s.allocated ∧
      (dir.Roomy s.db.nextSst → s.Served dir.Taken db.nextSst) := by
    refine @Steps.run_invariant Shared CacheEvent Shared.step (fun _ _ => True)
      (Shared.start blockCacheBytes db) s evs (fun s => s.db.Allocated db.nextSst s.allocated ∧
        (dir.Roomy s.db.nextSst → s.Served dir.Taken db.nextSst)) (fun t ev t' hI _ hstep => ?_)
      ⟨⟨le_rfl, fun n => ?_, List.nodup_nil⟩, fun _ => .start (numbered_open hdir hopen)⟩
      (Steps.Meets.of_forall fun _ _ => trivial) hrun
    · obtain ⟨halloc, hle⟩ := hI.1.shared_step hstep
      refine ⟨halloc, fun hroom => (hI.2 (hroom.mono hle)).step hstep fun hlt => ?_⟩
      exact (roomy_iff hopen).1 hroom _ hI.1.first_le hlt
    · simp only [Shared.start, List.not_mem_nil, false_iff]
      omega
  obtain ⟨halloc, hserved⟩ := hinv
  constructor
  · intro h
    exact (roomy_iff hopen).2 fun n hle hlt => h.fresh n ((halloc.mem n).2 ⟨hle, hlt⟩)
  · intro hroom
    have h := hserved hroom
    refine ⟨h.returned, halloc.nodup, fun n hn => ?_,
      fun fm hfm fm' hfm' ie hie ie' hie' => h.numbered.cacheKey_inj hfm hfm' hie hie'⟩
    obtain ⟨hle, hlt⟩ := (halloc.mem n).1 hn
    exact (roomy_iff hopen).1 hroom n hle hlt

/-- A directory of the old format, with one table and no MANIFEST. -/
def oldDir : Dir := { sst := [(4, tableFile [⟨[1], [7], false, 1⟩])] }

/-- Two readers load one block at the same time; then its table is merged and unlinked, and one
    of them reads on. The cache has room for one block only. -/
def staleRun : List CacheEvent :=
  [.engine (.assign [.put [2] [8]]), .engine (.apply []), .engine .flush,
    .hold 0, .hold 1, .find 0 0 0, .find 1 0 0, .load 0, .load 1, .insert 1, .insert 0,
    .engine .compactCall, .engine (.pick plainQueue), .engine .startWriter,
    .engine .finishWriter, .engine .commit, .engine (.unlink 4),
    .engine (.unlink 5), .find 0 0 0, .find 0 1 0, .load 0, .insert 0, .hold 1, .find 1 0 0,
    .load 1, .insert 1]

theorem cached_reads_stale : ∃ db s, DB.open {} [] oldDir = .ok db ∧
    Steps.run Shared.step (Shared.start 32 db) staleRun = some s ∧ s.allocated = [5, 6] ∧
    s.returned.length = 5 ∧ s.Right oldDir := by
  have h : ((DB.open {} [] oldDir).toOption.bind fun db =>
      (Steps.run Shared.step (Shared.start 32 db) staleRun).map fun s =>
        (s.allocated, s.returned.length)) = some ([5, 6], 5) := by decide +kernel
  obtain ⟨db, hdb, h⟩ := Option.bind_eq_some_iff.1 h
  obtain ⟨s, hs, he⟩ := Option.map_eq_some_iff.1 h
  obtain ⟨halloc, hlen⟩ := Prod.mk.inj he
  have hopen := eq_ok_of_toOption hdb
  have hdir : ∀ p ∈ oldDir.sst, FileOf (fun _ => True) p.2 := by
    intro p hp
    rw [List.mem_singleton.1 hp]
    exact ⟨[⟨[1], [7], false, 1⟩], rfl, by decide +kernel, trivial⟩
  have hroom : oldDir.Roomy s.db.nextSst := Or.inl (by decide +kernel)
  exact ⟨db, s, hopen, hs, halloc, hlen, (cached_reads_iff hdir hopen hs).2 hroom⟩

/-- Two live tables, one with the largest number there is. -/
def fullDir : Dir where
  wal := some []
  manifest := some (Manifest.encodeSnapshot [⟨1, 1, [1], [1]⟩, ⟨2147483647, 1, [2], [2]⟩])
  sst := [(1, tableFile [⟨[1], [7], false, 1⟩]), (2147483647, tableFile [⟨[2], [8], false, 2⟩])]

/-- A reader reads the block of the table 1; a flush writes another table 1, and a reader reads the
    block of that one. -/
def reuseRun : List CacheEvent :=
  [.hold 0, .find 0 0 0, .load 0, .insert 0, .engine (.assign [.put [3] [9]]), .engine (.apply []),
    .engine .flush, .hold 0, .find 0 0 0]

/-- **A number is used again**: after `DB::open` has found the number 2147483647 the next table
    gets the number 1, which is that of a live table, and a read of its block returns that table's
    block from the cache. -/
theorem number_reused : ∃ db s, DB.open {} [] fullDir = .ok db ∧
    Steps.run Shared.step (Shared.start 16777216 db) reuseRun = some s ∧
    s.allocated = [1] ∧ fullDir.Taken 1 ∧
    ∃ read ∈ s.returned, read.file.table.readDirect read.idx ≠ some read.result := by
  have h : ((DB.open {} [] fullDir).toOption.bind fun db =>
      (Steps.run Shared.step (Shared.start 16777216 db) reuseRun).map fun s =>
        (s.allocated, s.returned.any fun read =>
          (read.file.table.readDirect read.idx).bind Except.toOption ≠ read.result.toOption)) =
      some ([1], true) := by
    decide +kernel
  obtain ⟨db, hdb, h⟩ := Option.bind_eq_some_iff.1 h
  obtain ⟨s, hs, he⟩ := Option.map_eq_some_iff.1 h
  obtain ⟨halloc, hany⟩ := Prod.mk.inj he
  obtain ⟨read, hread, hne⟩ := List.any_eq_true.1 hany
  refine ⟨db, s, eq_ok_of_toOption hdb, hs, halloc, by decide +kernel, read, hread, fun hsame => ?_⟩
  rw [hsame] at hne
  simp at hne

end Keystone
