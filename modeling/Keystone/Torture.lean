/-
  The kill -9 torture test.

  `torture write` puts `key00000000`, `key00000001` and so on until it is killed, from the first
  key that is not there; `torture verify` counts the keys that are there without a gap, compares
  their values and probes the next ones. `torture.py` runs the two in turn and fails if `verify`
  does, or if the count shrinks. `Torture.step` is the whole campaign, with the compaction thread
  and a kill between any two file operations or in the append to the log, also while the store is
  opened. A kill inside the append of a MANIFEST snapshot is left out: what it leaves makes the
  reader miss the snapshots behind it.

  * `DB.Single`: a store that has one version of each key meets the conditions of the engine.
  * `torture_passes`: the campaign never fails, `verify` always comes to its end, and what it
    counts includes every `put` that had returned.
-/
import Keystone.BlockCache
import Keystone.CrashReads

namespace Keystone

/-! ## Keys -/

/-- The bytes of an ASCII text. -/
def ascii (text : List Char) : Bytes := text.map Char.toUInt8

/-- `%0*d` of a number that is not negative. -/
def zeroPadded (width n : Nat) : List Char :=
  List.replicate (width - (Nat.toDigits 10 n).length) '0' ++ Nat.toDigits 10 n

/-- `key%08d`. -/
def tortureKey (i : Nat) : Bytes := ascii (['k', 'e', 'y'] ++ zeroPadded 8 i)

/-- `val:` and the key. -/
def tortureValue (i : Nat) : Bytes := ascii ['v', 'a', 'l', ':'] ++ tortureKey i

theorem zeroPadded_isDigit {width n : Nat} {c : Char} (h : c ∈ zeroPadded width n) :
    c.isDigit = true := by
  rcases List.mem_append.1 h with h | h
  · rw [List.eq_of_mem_replicate h]
    rfl
  · exact Nat.isDigit_of_mem_toDigits (by norm_num) (by norm_num) h

theorem ofDigitChars_zeroPadded (width n : Nat) :
    Nat.ofDigitChars 10 (zeroPadded width n) 0 = n := by
  rw [zeroPadded, ofDigitChars_replicate_zero, Nat.ofDigitChars_ten_toDigits]

theorem toUInt8_inj_of_digit {a b : Char} (ha : a.isDigit = true) (hb : b.isDigit = true)
    (h : a.toUInt8 = b.toUInt8) : a = b := by
  have hlt : ∀ c : Char, c.isDigit = true → c.toUInt8.toNat = c.toNat := by
    intro c hc
    have hc' : 48 ≤ c.toNat ∧ c.toNat ≤ 57 := by
      simpa [Char.isDigit, UInt32.le_iff_toNat_le] using hc
    show c.val.toNat % 256 = c.val.toNat
    exact Nat.mod_eq_of_lt (lt_of_le_of_lt hc'.2 (by decide))
  have hn := congrArg UInt8.toNat h
  rw [hlt a ha, hlt b hb] at hn
  exact Char.toNat_inj.1 hn

theorem ascii_inj_of_digits {as bs : List Char} (ha : ∀ c ∈ as, c.isDigit = true)
    (hb : ∀ c ∈ bs, c.isDigit = true) (h : ascii as = ascii bs) : as = bs := by
  induction as generalizing bs with
  | nil => exact (List.map_eq_nil_iff.1 h.symm).symm
  | cons a as ih =>
    obtain ⟨b, bs', rfl, hab, htail⟩ := List.map_eq_cons_iff.1 h.symm
    rw [toUInt8_inj_of_digit (ha a List.mem_cons_self) (hb b List.mem_cons_self) hab.symm,
      ih (fun c hc => ha c (List.mem_cons_of_mem a hc)) (fun c hc => hb c (List.mem_cons_of_mem b hc))
        htail.symm]

/-- No two numbers have one key. -/
theorem tortureKey_inj {i j : Nat} (h : tortureKey i = tortureKey j) : i = j := by
  rw [tortureKey, tortureKey, ascii, ascii, List.map_append, List.map_append] at h
  have hd := ascii_inj_of_digits (fun _ => zeroPadded_isDigit) (fun _ => zeroPadded_isDigit)
    (List.append_cancel_left h)
  rw [← ofDigitChars_zeroPadded 8 i, hd, ofDigitChars_zeroPadded]

theorem tortureKey_ne_nil (i : Nat) : tortureKey i ≠ [] := List.cons_ne_nil _ _

theorem length_tortureKey {i : Nat} (hi : i < 2 ^ 31) : (tortureKey i).length ≤ 13 := by
  have h10 : (Nat.toDigits 10 i).length ≤ 10 := Nat.toDigits_length 10 i 10 (by decide) (by omega)
  simp only [tortureKey, ascii, zeroPadded, List.length_map, List.length_append,
    List.length_replicate, List.length_cons, List.length_nil]
  omega

/-! ## One version of each key -/

/-- There are no two versions of a key. -/
def OneVersion (es : List Entry) : Prop := ∀ a ∈ es, ∀ b ∈ es, a.key = b.key → a = b

theorem OneVersion.keys {es : List Entry} (h : OneVersion es) (hs : SortedLe es) (hnd : es.Nodup) :
    es.Pairwise fun a b => a.key < b.key := by
  refine (List.Pairwise.and hs hnd).imp_of_mem fun {a b} ha hb hab => ?_
  exact hab.1.resolve_right fun he => hab.2 (h a ha b hb he.1)

/-- What an entry within the limits of the log takes in a block, at most. -/
def maxEntryLen : Nat := 17 + 2 * Wal.maxFieldLen

theorem Wal.Record.Fits.entry_length {r : Wal.Record} (h : r.Fits) :
    (SSTableWriter.encodeEntry r.entry).length ≤ maxEntryLen := by
  have hkey := h.1
  have hvalue := h.2
  rw [encodeEntry_length, Wal.Record.entry_key, maxEntryLen]
  cases hdel : r.entry.tombstone with
  | true =>
    simp only [if_true, List.length_nil]
    omega
  | false =>
    have hv : r.entry.value.length ≤ r.value.length := by
      unfold Wal.Record.entry
      split <;> simp
    simp only [Bool.false_eq_true, if_false]
    omega

/-- One version of each key, none of the keys empty and no entry long. -/
structure OneEach (es : List Entry) : Prop where
  one : OneVersion es
  nonempty : ∀ e ∈ es, e.key ≠ []
  small : ∀ e ∈ es, (SSTableWriter.encodeEntry e).length ≤ maxEntryLen

theorem OneEach.mono {es es' : List Entry} (h : OneEach es) (hsub : ∀ e ∈ es', e ∈ es) :
    OneEach es' :=
  ⟨fun a ha b hb => h.one a (hsub a ha) b (hsub b hb), fun e he => h.nonempty e (hsub e he),
    fun e he => h.small e (hsub e he)⟩

/-- A store with one version of each key that serves no snapshot and no call of `compact`. -/
structure DB.Single (db : DB) : Prop where
  steady : db.Steady
  each : OneEach db.entries
  pieces : ∀ es ∈ Job.pieces db.job, es.Pairwise fun a b => a.key < b.key
  snapshots : db.liveSnapshots = []
  forced : db.forceCompact = false
  l0Round : ∀ j, db.job = some j → j.job.outputLevel ≠ 0

/-- The steps of a process that takes no snapshot and calls neither `compact` nor `DB::open`. -/
def Event.plain : Event → Bool
  | .getSnapshot | .compactCall | .compactWake | .reopen _ _ => false
  | _ => true

namespace DB.Single

variable {db db' : DB} {ev : Event}

/-- What is still to be written is of the store. -/
theorem pieces_subset (h : db.Single) {es : List Entry} (hes : es ∈ Job.pieces db.job) {e : Entry}
    (he : e ∈ es) : e ∈ db.entries := by
  cases hj : db.job with
  | none =>
    rw [hj] at hes
    exact absurd hes (by simp [Job.pieces])
  | some j =>
    rw [hj] at hes
    obtain ⟨oldestSnap, stream, hok, -⟩ := (h.steady.runs j hj).ok
    have hpart : e ∈ j.parts.flatten :=
      List.mem_flatten.2 ⟨es, List.mem_append_right _ hes, he⟩
    rw [hok.kept] at hpart
    rw [mem_entries_split h.steady.wellFormed.stored hj]
    exact Or.inr ((hok.stream_mem e).1 ((retain_sublist _ _ _ _).subset hpart))

/-- A table the next step writes has one version of each key, none of them long. -/
theorem newTables (h : db.Single) {es : List Entry} (hes : es ∈ db.newTables ev) :
    (es.Pairwise fun a b => a.key < b.key) ∧
      ∀ e ∈ es, (SSTableWriter.encodeEntry e).length ≤ maxEntryLen := by
  rcases DB.mem_newTables hes with rfl | hpiece
  · have hmem : OneEach db.memtable.entries := h.each.mono fun e he => List.mem_append_left _ he
    exact ⟨hmem.one.keys db.memtable.sortedLe_entries h.steady.ready.nodup, hmem.small⟩
  · exact ⟨h.pieces es hpiece, fun e he => h.each.small e (h.pieces_subset hpiece he)⟩

theorem tablesFit (h : db.Single) (ev : Event) : db.TablesFit ev := by
  intro es hes
  obtain ⟨hkeys, hsmall⟩ := h.newTables hes
  exact blocksFit_of_keys hkeys hsmall (by decide)

theorem l0RangeKept (h : db.Single) : L0RangeKept db.version := by
  rintro ⟨f, hf, hk⟩
  have hfile := Version.mem_allFiles.2 ⟨0, hf⟩
  have hok := h.steady.wellFormed.okFiles f hfile
  obtain ⟨e, he, hek⟩ := headKey_mem hok.ne_nil
  exact absurd (hek.trans (hok.smallest.symm.trans hk))
    (h.each.nonempty e (DB.mem_entries.2 (Or.inr ⟨f, hfile, he⟩)))

/-- **The conditions of the engine hold**, whatever the next step is. -/
theorem exactOk (h : db.Single) (hwrap : db.NoWrap ev) (hlog : ev.LogFits) : ExactOk db ev := by
  have hw := h.steady.wellFormed
  refine ⟨⟨hwrap, ⟨hlog, h.tablesFit ev⟩, ?_, ?_, ?_⟩, fun es hes => ?_⟩
  · cases ev with
    | pick pq => exact fun _ _ => h.l0RangeKept
    | _ => trivial
  · cases ev with
    | pick pq => exact cutsBetweenKeys_of_keys (kept_keys hw h.snapshots pq)
    | _ => trivial
  · cases ev with
    | commit => exact fun j hj h0 => absurd h0 (h.l0Round j hj)
    | _ => trivial
  · exact keysWhole_of_keys (h.newTables hes).1

/-- **One step.** -/
theorem step (h : db.Single) (hev : ev.plain = true) (hwrap : db.NoWrap ev) (hlog : ev.LogFits)
    (hread : ∀ op ∈ db.diskOps ev, op.Readable) (heach : OneEach (db.applied ev ++ db.entries))
    (hstep : db.step ev = some db') : db'.Single := by
  have hr : ∀ opts coins, ev ≠ .reopen opts coins := by
    rintro opts coins rfl
    exact absurd hev Bool.false_ne_true
  have hfit := h.tablesFit ev
  have hframe := DB.step_frame hstep
  refine ⟨h.steady.step (h.exactOk hwrap hlog) ⟨⟨hlog, hfit⟩, hread⟩ hr hstep,
    heach.mono (h.steady.entries_subset hfit hr hstep),
    pieces_keys h.steady.wellFormed h.snapshots h.pieces hr hstep, ?_, ?_, fun j' hj' => ?_⟩
  · rw [List.eq_nil_iff_forall_not_mem]
    intro s hs
    rcases Keystone.snapshots_step hr hstep s hs with hold | ⟨rfl, -⟩
    · exact absurd hold (h.snapshots ▸ List.not_mem_nil)
    · exact absurd hev Bool.false_ne_true
  · rcases calls_step hstep with ⟨-, hf⟩ | rfl | rfl | ⟨opts, coins, rfl⟩
    · exact hf.trans h.forced
    · exact absurd hev Bool.false_ne_true
    · exact absurd hev Bool.false_ne_true
    · exact absurd hev Bool.false_ne_true
  · rcases DB.round_before hr hstep hj' with ⟨pq, rfl, hj⟩ | ⟨j, hj, hc⟩
    · obtain ⟨-, ⟨-, rfl⟩ | ⟨hne, rfl⟩⟩ := DB.pick_inv h.steady.wellFormed.stored hstep
      · exact nomatch hj.symm.trans hj'
      · obtain rfl := Option.some.inj hj'
        exact fun h0 => absurd ((pick_l0 h0 hne).1.symm.trans h.forced) (by decide)
    · obtain ⟨j₁, hj₁, hjob, -⟩ := job_moves hj hc hstep
      obtain rfl := Option.some.inj (hj₁.symm.trans hj')
      exact hjob ▸ h.l0Round j hj

/-- An open. -/
theorem of_recovers {s : Contents} {es : List Entry} (h : db.Recovers s es) (heach : OneEach es) :
    db.Single where
  steady := h.steady
  each := heach.mono h.entries
  pieces := by simp [h.idle.1, Job.pieces]
  snapshots := h.idle.2.2.1
  forced := h.idle.2.2.2
  l0Round := fun _ hj => nomatch h.idle.1.symm.trans hj

end DB.Single

/-! ## The campaign -/

/-- How a campaign fails: an exception, one of the two reports of `verify`, or the check of
    `torture.py`. -/
inductive Failure where
  | threw
  | corruption (i : Nat)
  | hole (prefixLen i : Nat)
  | shrank (prefixLen : Nat)
  deriving DecidableEq

/-- Where the main thread is. -/
inductive TorturePc where
  /-- `write` looks for the first key that is not there. -/
  | search (start : Nat)
  /-- It calls `put` for this key. -/
  | put (i : Nat)
  /-- The write has its sequence number. -/
  | append (i : Nat)
  /-- It is logged and in the memtable. -/
  | flush (i : Nat)
  /-- `verify` counts. -/
  | check (prefixLen : Nat)
  /-- It looks behind the gap. -/
  | probe (prefixLen i : Nat)
  /-- It has printed the count. -/
  | passed (prefixLen : Nat)
  /-- `write` is started again. -/
  | restart
  | failed (f : Failure)
  deriving DecidableEq

/-- The running process, and the last count of `torture.py`. -/
structure Torture where
  db : DB
  pc : TorturePc
  prevPrefix : Nat

/-- The call `db->put(key, std::string("val:") + key)`. -/
def torturePut (i : Nat) : Op := .put (tortureKey i) (tortureValue i)

/-- The options of `write`; `verify` has the defaults. -/
def writeOptions : Options := { flushThresholdBytes := 64 * 1024 }

namespace Torture

/-- What `get` leads to. An exception ends the process. -/
def read (t : Torture) (i : Nat) (next : Option Bytes → TorturePc) : Torture :=
  { t with
    pc := match t.db.get (tortureKey i) with
      | .ok value => next value
      | .error _ => .failed .threw }

/-- The next statement of the main thread, or of `torture.py` between two processes. -/
def main (t : Torture) (coins : List (List Bool)) : Option Torture :=
  match t.pc with
  | .search start => some (t.read start fun value =>
      if value.isSome then .search (start + 1) else .put start)
  | .put i => (t.db.assign [torturePut i]).map fun db => { t with db := db, pc := .append i }
  | .append i => (t.db.apply coins).map fun db => { t with db := db, pc := .flush i }
  | .flush i => t.db.maybeFlush.map fun db => { t with db := db, pc := .put (i + 1) }
  | .check prefixLen => some (t.read prefixLen fun value =>
      match value with
      | none => .probe prefixLen (prefixLen + 1)
      | some v => if v = tortureValue prefixLen then .check (prefixLen + 1)
          else .failed (.corruption prefixLen))
  | .probe prefixLen i =>
    if i < prefixLen + 1000 then
      some (t.read i fun value =>
        if value.isSome then .failed (.hole prefixLen i) else .probe prefixLen (i + 1))
    else some { t with pc := .passed prefixLen }
  | .passed prefixLen =>
    if prefixLen < t.prevPrefix then some { t with pc := .failed (.shrank prefixLen) }
    else some { t with pc := .restart, prevPrefix := prefixLen }
  | .restart => (t.db.reopen writeOptions coins).map fun db => { t with db := db, pc := .search 0 }
  | .failed _ => none

end Torture

/-- The steps of the compaction thread. -/
def Event.ofThread : Event → Bool
  | .pick _ | .startWriter | .finishWriter | .commit | .unlink _ => true
  | _ => false

/-- The step of the engine that a kill may interrupt; `releaseSnapshot`, which touches no file,
    stands for none. -/
def TorturePc.interrupted : TorturePc → Event → Bool
  | .append _, .apply _ => true
  | .flush _, .maybeFlush => true
  | .restart, .reopen _ _ => true
  | .search _, ev | .put _, ev | .append _, ev | .flush _, ev =>
    ev.ofThread || (match ev with | .releaseSnapshot _ => true | _ => false)
  | _, _ => false

/-- What can happen next. -/
inductive TortureEvent where
  | main (coins : List (List Bool))
  | thread (ev : Event)
  | kill (c : CrashAt)

/-- One step of the campaign. The process that opens the store behind a kill is `verify`. -/
def Torture.step (t : Torture) : TortureEvent → Option Torture
  | .main coins => t.main coins
  | .thread ev =>
    if ev.ofThread then (t.db.step ev).map fun db => { t with db := db } else none
  | .kill c =>
    if t.pc.interrupted c.ev then
      (t.db.crash { c with opts := {} }).map fun db => { t with db := db, pc := .check 0 }
    else none

/-- The first `write`, once it has opened its store. -/
def Torture.start : Torture := ⟨DB.create writeOptions, .search 0, 0⟩

/-- What the next statement needs: numbers that `int` and `uint64_t` hold, those of the probes
    included, and snapshots that the MANIFEST reader takes. -/
def TorturePc.Ok (db : DB) : TorturePc → Prop
  | .put i => i + 1000 < 2 ^ 31 ∧ db.nextSeq.toNat + 1 < 2 ^ 64
  | .flush _ => ∀ op ∈ db.diskOps .maybeFlush, op.Readable
  | _ => True

/-- What a step needs. -/
def TortureOk (t : Torture) : TortureEvent → Prop
  | .main _ => t.pc.Ok t.db
  | .thread ev => ∀ op ∈ t.db.diskOps ev, op.Readable
  | .kill c => ∀ op ∈ t.db.diskOps c.ev, op.Readable

instance (db : DB) (pc : TorturePc) : Decidable (pc.Ok db) :=
  match pc with
  | .put _ => inferInstanceAs (Decidable (_ ∧ _))
  | .flush _ => inferInstanceAs (Decidable (∀ op ∈ db.diskOps .maybeFlush, op.Readable))
  | .search _ | .append _ | .check _ | .probe _ _ | .passed _ | .restart | .failed _ =>
    instDecidableTrue

instance (t : Torture) (ev : TortureEvent) : Decidable (TortureOk t ev) :=
  match ev with
  | .main _ => inferInstanceAs (Decidable (t.pc.Ok t.db))
  | .thread ev => inferInstanceAs (Decidable (∀ op ∈ t.db.diskOps ev, op.Readable))
  | .kill c => inferInstanceAs (Decidable (∀ op ∈ t.db.diskOps c.ev, op.Readable))

/-! ## The store of a campaign -/

/-- The first `n` keys are there with their values, and no other. -/
structure Contents.Counts (s : Contents) (n : Nat) : Prop where
  present : ∀ i < n, s (tortureKey i) = some (tortureValue i)
  absent : ∀ i, n ≤ i → s (tortureKey i) = none

theorem Contents.Counts.write {s : Contents} {n : Nat} (h : s.Counts n) :
    (s.write (torturePut n)).Counts (n + 1) where
  present := by
    intro i hi
    by_cases he : i = n
    · rw [he]
      exact if_pos rfl
    · exact (if_neg fun hk => he (tortureKey_inj hk).symm).trans (h.present i (by omega))
  absent := by
    intro i hi
    exact (if_neg fun hk => absurd (tortureKey_inj hk) (by omega)).trans (h.absent i (by omega))

/-- The store holds the first `n` keys. -/
structure DB.Counted (db : DB) (n : Nat) : Prop where
  single : db.Single
  counts : db.contents.Counts n
  keys : ∀ e ∈ db.entries, ∃ i < n, e.key = tortureKey i

namespace DB.Counted

variable {db db' : DB} {n : Nat} {ev : Event}

theorem get (h : db.Counted n) (key : Bytes) : db.get key = .ok (db.contents key) :=
  h.single.steady.getImpl key uint64Max

/-- A step that applies nothing. -/
theorem quiet (h : db.Counted n) (hev : ev.plain = true) (happ : db.applied ev = [])
    (hwrap : db.NoWrap ev) (hlog : ev.LogFits) (hread : ∀ op ∈ db.diskOps ev, op.Readable)
    (hstep : db.step ev = some db') : db'.Counted n := by
  have hr : ∀ opts coins, ev ≠ .reopen opts coins := by
    rintro opts coins rfl
    exact absurd hev Bool.false_ne_true
  have hfit := h.single.tablesFit ev
  have hsub := h.single.steady.entries_subset hfit hr hstep
  have hcont : db'.contents = db.contents := funext fun k => by
    rw [h.single.steady.contents_step hfit hr hstep, happ]
    rfl
  rw [happ] at hsub
  exact ⟨h.single.step hev hwrap hlog hread (by rw [happ]; exact h.single.each) hstep,
    hcont ▸ h.counts, fun e he => h.keys e (hsub e he)⟩

/-- The write of the next key, as an entry. -/
theorem each_next (h : db.Counted n) {seq : UInt64} (hfits : ((torturePut n).record seq).Fits) :
    OneEach (((torturePut n).record seq).entry :: db.entries) where
  one := by
    have hnew : ∀ e ∈ db.entries, ((torturePut n).record seq).entry.key ≠ e.key := by
      intro e he hk
      obtain ⟨i, hi, hei⟩ := h.keys e he
      exact absurd (tortureKey_inj (hk.trans hei)) (ne_of_gt hi)
    intro a ha b hb hk
    rcases List.mem_cons.1 ha with rfl | ha <;> rcases List.mem_cons.1 hb with rfl | hb
    · rfl
    · exact absurd hk (hnew b hb)
    · exact absurd hk.symm (hnew a ha)
    · exact h.single.each.one a ha b hb hk
  nonempty := List.forall_mem_cons.2 ⟨tortureKey_ne_nil n, h.single.each.nonempty⟩
  small := List.forall_mem_cons.2 ⟨hfits.entry_length, h.single.each.small⟩

/-- What holds of the store once the next key is in it. -/
theorem next (h : db.Counted n) (seq : UInt64) (hs : db'.Single)
    (hcont : db'.contents = fun k => valueAfter k (db.contents k)
      [((torturePut n).record seq).entry])
    (hsub : ∀ e ∈ db'.entries, e ∈ ((torturePut n).record seq).entry :: db.entries) :
    db'.Counted (n + 1) := by
  refine ⟨hs, ?_, fun e he => ?_⟩
  · rw [hcont]
    exact h.counts.write
  · rcases List.mem_cons.1 (hsub e he) with rfl | he
    · exact ⟨n, Nat.lt_succ_self n, rfl⟩
    · obtain ⟨i, hi, hk⟩ := h.keys e he
      exact ⟨i, Nat.lt_succ_of_lt hi, hk⟩

/-- The write in flight is within the limits of the log. -/
theorem inflight_fits (h : db.Counted n) {seq : UInt64}
    (hin : db.inflight = [(torturePut n).record seq]) : ((torturePut n).record seq).Fits :=
  h.single.steady.wellFormed.inflight _ (hin ▸ List.mem_singleton_self _)

theorem apply (h : db.Counted n) {seq : UInt64} (hin : db.inflight = [(torturePut n).record seq])
    {coins : List (List Bool)} (hstep : db.apply coins = some db') : db'.Counted (n + 1) := by
  have happ : db.applied (.apply coins) = [((torturePut n).record seq).entry] := by
    rw [DB.applied, hin]
    rfl
  have hr : ∀ opts coins', Event.apply coins ≠ .reopen opts coins' := by simp
  have hfit := h.single.tablesFit (.apply coins)
  have hs : db'.Single := by
    refine @DB.Single.step db db' (.apply coins) h.single rfl trivial
      (Event.logFits_of_calls rfl) (fun op hop => ?_) ?_ hstep
    · rw [List.mem_singleton.1 hop]
      trivial
    · rw [happ]
      exact h.each_next (h.inflight_fits hin)
  refine h.next seq hs (funext fun k => ?_) ?_
  · rw [h.single.steady.contents_step hfit hr hstep, happ]
  · have hsub := h.single.steady.entries_subset hfit hr hstep
    rw [happ] at hsub
    exact hsub

/-- The store behind an open that finds what was there. -/
theorem recovers (h : db.Counted n) (hrec : db'.Recovers db.contents db.entries) :
    db'.Counted n :=
  ⟨.of_recovers hrec h.single.each, hrec.contents ▸ h.counts,
    fun e he => h.keys e (hrec.entries e he)⟩

/-- **A kill** loses nothing but the write in flight, and perhaps not even that. -/
theorem crash (h : db.Counted n) {c : CrashAt} (hread : ∀ op ∈ db.diskOps c.ev, op.Readable)
    (hwrap : db.NoWrap c.ev) (hlog : c.ev.LogFits)
    (hin : ∀ coins, c.ev = .apply coins → ∃ seq, db.inflight = [(torturePut n).record seq])
    (hcrash : db.crash c = some db') :
    db'.inflight = [] ∧ ∃ n', n ≤ n' ∧ db'.Counted n' := by
  have hsteady := h.single.steady
  by_cases hev : ∃ coins, c.ev = .apply coins
  · obtain ⟨coins, hev⟩ := hev
    obtain ⟨kept, hkept, -, hrec⟩ := hsteady.crash_apply hev hcrash
    obtain ⟨seq, hseq⟩ := hin coins hev
    rw [hseq] at hkept
    refine ⟨hrec.idle.2.1, ?_⟩
    rcases List.prefix_cons_iff.1 hkept with rfl | ⟨rest, rfl, hrest⟩
    · exact ⟨n, le_rfl, h.recovers hrec⟩
    · obtain rfl := List.prefix_nil.1 hrest
      have hs : db'.Single := .of_recovers hrec (h.each_next (h.inflight_fits hseq))
      exact ⟨n + 1, Nat.le_succ n, h.next seq hs hrec.contents hrec.entries⟩
  · have hrec := hsteady.crash (h.single.exactOk hwrap hlog)
      ⟨⟨hlog, h.single.tablesFit c.ev⟩, hread⟩ (fun coins he => hev ⟨coins, he⟩) hcrash
    exact ⟨hrec.idle.2.1, n, le_rfl, h.recovers hrec⟩

end DB.Counted

/-! ## The invariant -/

/-- Where the main thread can be if the store holds the first `n` keys. -/
def TorturePc.At (inflight : List Wal.Record) (n : Nat) : TorturePc → Prop
  | .search start => start ≤ n ∧ inflight = []
  | .put i => i = n ∧ inflight = []
  | .append i => i = n ∧ ∃ seq, inflight = [(torturePut n).record seq]
  | .flush i => n = i + 1 ∧ inflight = []
  | .check prefixLen => prefixLen ≤ n ∧ inflight = []
  | .probe prefixLen i => prefixLen = n ∧ n < i ∧ inflight = []
  | .passed prefixLen => prefixLen = n ∧ inflight = []
  | .restart => inflight = []
  | .failed _ => False

/-- A kill interrupts the log's append only where a write is in flight. -/
theorem TorturePc.At.interrupted {pc : TorturePc} {inflight : List Wal.Record} {n : Nat}
    {ev : Event} (h : pc.At inflight n) (hev : pc.interrupted ev = true) (db : DB) :
    db.NoWrap ev ∧ ev.LogFits ∧
      ∀ coins, ev = .apply coins → ∃ seq, inflight = [(torturePut n).record seq] := by
  cases ev with
  | assign ops => cases pc <;> exact absurd hev Bool.false_ne_true
  | apply coins =>
    refine ⟨trivial, Event.logFits_of_calls rfl, fun _ _ => ?_⟩
    cases pc with
    | append i => exact h.2
    | _ => exact absurd hev Bool.false_ne_true
  | _ => exact ⟨trivial, Event.logFits_of_calls rfl, by simp⟩

/-- The invariant: the store holds the first `n` keys, and nothing has failed. -/
structure Torture.Holds (t : Torture) (n : Nat) : Prop where
  counted : t.db.Counted n
  prev : t.prevPrefix ≤ n
  pc : t.pc.At t.db.inflight n

namespace Torture.Holds

variable {t t' : Torture} {n : Nat}

theorem pc_at (h : t.Holds n) {pc : TorturePc} (hpc : t.pc = pc) : pc.At t.db.inflight n :=
  hpc ▸ h.pc

/-- `get` does not throw. -/
theorem read (h : t.Holds n) (i : Nat) (next : Option Bytes → TorturePc) :
    t.read i next = { t with pc := next (t.db.contents (tortureKey i)) } := by
  rw [Torture.read, h.counted.get]

theorem search (h : t.Holds n) {start : Nat} (hpc : t.pc = .search start) {coins : List (List Bool)}
    (hstep : t.main coins = some t') : t'.Holds n := by
  obtain ⟨hle, hin⟩ : start ≤ n ∧ t.db.inflight = [] := h.pc_at hpc
  rw [main, hpc] at hstep
  obtain rfl := Option.some.inj hstep
  rw [h.read]
  refine ⟨h.counted, h.prev, ?_⟩
  rcases Nat.lt_or_eq_of_le hle with hlt | rfl
  · rw [h.counted.counts.present start hlt]
    exact ⟨hlt, hin⟩
  · rw [h.counted.counts.absent start le_rfl]
    exact ⟨rfl, hin⟩

theorem put (h : t.Holds n) {i : Nat} (hpc : t.pc = .put i) {coins : List (List Bool)}
    (hok : TortureOk t (.main coins)) (hstep : t.main coins = some t') : t'.Holds n := by
  obtain ⟨rfl, hin⟩ : i = n ∧ t.db.inflight = [] := h.pc_at hpc
  have hlim : i + 1000 < 2 ^ 31 ∧ t.db.nextSeq.toNat + 1 < 2 ^ 64 := by
    have hmain : t.pc.Ok t.db := hok
    rwa [hpc] at hmain
  rw [main, hpc] at hstep
  obtain ⟨db, hdb, rfl⟩ := Option.map_eq_some_iff.1 hstep
  have hlen := length_tortureKey (show i < 2 ^ 31 by omega)
  have hfits : ∀ op ∈ [torturePut i], op.Fits := by
    intro op hop
    rw [List.mem_singleton.1 hop]
    refine ⟨le_trans hlen (by decide), ?_⟩
    show (tortureValue i).length ≤ _
    rw [tortureValue, List.length_append]
    exact le_trans (Nat.add_le_add_left hlen _) (by decide)
  refine ⟨@DB.Counted.quiet t.db db i (.assign [torturePut i]) h.counted rfl rfl hlim.2 hfits
    (by simp [DB.diskOps]) hdb, h.prev, rfl, t.db.nextSeq, ?_⟩
  rw [(DB.assign_inv hdb).2.2]
  rfl

theorem append (h : t.Holds n) {i : Nat} (hpc : t.pc = .append i) {coins : List (List Bool)}
    (hstep : t.main coins = some t') : t'.Holds (n + 1) := by
  obtain ⟨rfl, seq, hin⟩ : i = n ∧ ∃ seq, t.db.inflight = [(torturePut n).record seq] := h.pc_at hpc
  rw [main, hpc] at hstep
  obtain ⟨db, hdb, rfl⟩ := Option.map_eq_some_iff.1 hstep
  refine ⟨h.counted.apply hin hdb, Nat.le_succ_of_le h.prev, rfl, ?_⟩
  rw [(DB.apply_inv hdb).2]

theorem flush (h : t.Holds n) {i : Nat} (hpc : t.pc = .flush i) {coins : List (List Bool)}
    (hok : TortureOk t (.main coins)) (hstep : t.main coins = some t') : t'.Holds n := by
  obtain ⟨rfl, hin⟩ : n = i + 1 ∧ t.db.inflight = [] := h.pc_at hpc
  have hread : ∀ op ∈ t.db.diskOps .maybeFlush, op.Readable := by
    have hmain : t.pc.Ok t.db := hok
    rwa [hpc] at hmain
  rw [main, hpc] at hstep
  obtain ⟨db, hdb, rfl⟩ := Option.map_eq_some_iff.1 hstep
  have hev : t.db.step .maybeFlush = some db := hdb
  refine ⟨@DB.Counted.quiet t.db db _ .maybeFlush h.counted rfl rfl trivial
    (Event.logFits_of_calls rfl) hread hev, h.prev, rfl, ?_⟩
  exact ((DB.step_frame hev).writers rfl).2.trans hin

theorem check (h : t.Holds n) {m : Nat} (hpc : t.pc = .check m) {coins : List (List Bool)}
    (hstep : t.main coins = some t') : t'.Holds n := by
  obtain ⟨hle, hin⟩ : m ≤ n ∧ t.db.inflight = [] := h.pc_at hpc
  rw [main, hpc] at hstep
  obtain rfl := Option.some.inj hstep
  rw [h.read]
  refine ⟨h.counted, h.prev, ?_⟩
  rcases Nat.lt_or_eq_of_le hle with hlt | rfl
  · rw [h.counted.counts.present m hlt]
    simp only [if_true]
    exact ⟨hlt, hin⟩
  · rw [h.counted.counts.absent m le_rfl]
    exact ⟨rfl, Nat.lt_succ_self m, hin⟩

theorem probe (h : t.Holds n) {m i : Nat} (hpc : t.pc = .probe m i) {coins : List (List Bool)}
    (hstep : t.main coins = some t') : t'.Holds n := by
  obtain ⟨rfl, hlt, hin⟩ : m = n ∧ n < i ∧ t.db.inflight = [] := h.pc_at hpc
  rw [main, hpc] at hstep
  simp only at hstep
  split at hstep
  · obtain rfl := Option.some.inj hstep
    rw [h.read, h.counted.counts.absent i (le_of_lt hlt)]
    exact ⟨h.counted, h.prev, rfl, Nat.lt_succ_of_lt hlt, hin⟩
  · obtain rfl := Option.some.inj hstep
    exact ⟨h.counted, h.prev, rfl, hin⟩

theorem passed (h : t.Holds n) {m : Nat} (hpc : t.pc = .passed m) {coins : List (List Bool)}
    (hstep : t.main coins = some t') : t'.Holds n := by
  obtain ⟨rfl, hin⟩ : m = n ∧ t.db.inflight = [] := h.pc_at hpc
  rw [main, hpc] at hstep
  simp only [if_neg (not_lt.2 h.prev)] at hstep
  obtain rfl := Option.some.inj hstep
  exact ⟨h.counted, le_rfl, hin⟩

theorem restart (h : t.Holds n) (hpc : t.pc = .restart) {coins : List (List Bool)}
    (hstep : t.main coins = some t') : t'.Holds n := by
  rw [main, hpc] at hstep
  obtain ⟨db, hdb, rfl⟩ := Option.map_eq_some_iff.1 hstep
  have hrec := h.counted.single.steady.reopen hdb
  exact ⟨h.counted.recovers hrec, h.prev, Nat.zero_le n, hrec.idle.2.1⟩

/-- A step of the compaction thread. -/
theorem thread (h : t.Holds n) {ev : Event} (hok : TortureOk t (.thread ev))
    (hstep : t.step (.thread ev) = some t') : t'.Holds n := by
  simp only [Torture.step] at hstep
  split at hstep
  · rename_i hev
    obtain ⟨db, hdb, rfl⟩ := Option.map_eq_some_iff.1 hstep
    have hkind : ev.plain = true ∧ t.db.applied ev = [] ∧ t.db.NoWrap ev ∧ ev.calls = [] ∧
        ev.ofWriters = false := by
      cases ev with
      | pick pq => exact ⟨rfl, rfl, trivial, rfl, rfl⟩
      | startWriter => exact ⟨rfl, rfl, trivial, rfl, rfl⟩
      | finishWriter => exact ⟨rfl, rfl, trivial, rfl, rfl⟩
      | commit => exact ⟨rfl, rfl, trivial, rfl, rfl⟩
      | unlink number => exact ⟨rfl, rfl, trivial, rfl, rfl⟩
      | _ => exact absurd hev Bool.false_ne_true
    obtain ⟨hplain, happ, hwrap, hcalls, hwriters⟩ := hkind
    refine ⟨h.counted.quiet hplain happ hwrap (Event.logFits_of_calls hcalls) hok hdb, h.prev, ?_⟩
    show t.pc.At db.inflight n
    rw [((DB.step_frame hdb).writers hwriters).2]
    exact h.pc
  · exact nomatch hstep

/-- **A kill**, and the `verify` behind it. -/
theorem kill (h : t.Holds n) {c : CrashAt} (hok : TortureOk t (.kill c))
    (hstep : t.step (.kill c) = some t') : ∃ n', n ≤ n' ∧ t'.Holds n' := by
  simp only [Torture.step] at hstep
  split at hstep
  · rename_i hev
    obtain ⟨db, hdb, rfl⟩ := Option.map_eq_some_iff.1 hstep
    obtain ⟨hwrap, hlog, happ⟩ := h.pc.interrupted hev t.db
    obtain ⟨hin, n', hle, hcounted⟩ :=
      @DB.Counted.crash t.db db n h.counted { c with opts := {} } hok hwrap hlog happ hdb
    exact ⟨n', hle, hcounted, le_trans h.prev hle, Nat.zero_le n', hin⟩
  · exact nomatch hstep

/-- **One step of the campaign.** -/
theorem step (h : t.Holds n) {ev : TortureEvent} (hok : TortureOk t ev)
    (hstep : t.step ev = some t') : ∃ n', n ≤ n' ∧ t'.Holds n' := by
  cases ev with
  | main coins =>
    cases hpc : t.pc with
    | search start => exact ⟨n, le_rfl, h.search hpc hstep⟩
    | put i => exact ⟨n, le_rfl, h.put hpc hok hstep⟩
    | append i => exact ⟨n + 1, Nat.le_succ n, h.append hpc hstep⟩
    | flush i => exact ⟨n, le_rfl, h.flush hpc hok hstep⟩
    | check m => exact ⟨n, le_rfl, h.check hpc hstep⟩
    | probe m i => exact ⟨n, le_rfl, h.probe hpc hstep⟩
    | passed m => exact ⟨n, le_rfl, h.passed hpc hstep⟩
    | restart => exact ⟨n, le_rfl, h.restart hpc hstep⟩
    | failed f =>
      have hfalse : False := h.pc_at hpc
      exact hfalse.elim
  | thread ev => exact ⟨n, le_rfl, h.thread hok hstep⟩
  | kill c => exact h.kill hok hstep

/-- **A whole campaign.** -/
theorem run (h : t.Holds n) {evs : List TortureEvent}
    (hok : Steps.Meets Torture.step TortureOk t evs) (hrun : Steps.run Torture.step t evs = some t') :
    ∃ n', n ≤ n' ∧ t'.Holds n' :=
  @Steps.run_invariant _ _ Torture.step TortureOk t t' evs (fun t => ∃ n', n ≤ n' ∧ t.Holds n')
    (fun _ _ _ ⟨_, hle, h⟩ hP hs => by
      obtain ⟨n', hle', h'⟩ := h.step hP hs
      exact ⟨n', le_trans hle hle', h'⟩) ⟨n, le_rfl, h⟩ hok hrun

/-- `verify` finds every key there is, one after the other. -/
theorem run_check (h : t.Holds n) {m k : Nat} (hpc : t.pc = .check m) (hk : m + k = n) :
    Steps.run Torture.step t (List.replicate k (.main [])) = some { t with pc := .check n } := by
  induction k generalizing t m with
  | zero =>
    obtain rfl : m = n := hk
    rw [← hpc]
    rfl
  | succ k ih =>
    have hmain : t.step (.main []) = some { t with pc := .check (m + 1) } := by
      rw [Torture.step, main, hpc]
      show some (t.read m _) = _
      rw [h.read, h.counted.counts.present m (by omega)]
      simp
    have h' := h.check hpc hmain
    rw [List.replicate_succ, Steps.run, hmain]
    exact ih h' rfl (by omega)

/-- And none of those behind them. -/
theorem run_probe (h : t.Holds n) {i k : Nat} (hpc : t.pc = .probe n i) (hk : i + k = n + 1000) :
    Steps.run Torture.step t (List.replicate (k + 1) (.main [])) =
      some { t with pc := .passed n } := by
  induction k generalizing t i with
  | zero =>
    have hmain : t.step (.main []) = some { t with pc := .passed n } := by
      rw [Torture.step, main, hpc]
      exact if_neg (by omega)
    rw [List.replicate_succ, Steps.run, hmain]
    rfl
  | succ k ih =>
    obtain ⟨-, hlt, -⟩ : n = n ∧ n < i ∧ t.db.inflight = [] := h.pc_at hpc
    have hmain : t.step (.main []) = some { t with pc := .probe n (i + 1) } := by
      rw [Torture.step, main, hpc]
      refine (if_pos (show i < n + 1000 by omega)).trans ?_
      rw [h.read, h.counted.counts.absent i (le_of_lt hlt)]
      rfl
    have h' := h.probe hpc hmain
    rw [List.replicate_succ, Steps.run, hmain]
    exact ih h' rfl (by omega)

/-- **`verify` comes to its end**: it prints how many keys there are. -/
theorem run_verify (h : t.Holds n) (hpc : t.pc = .check 0) :
    Steps.run Torture.step t (List.replicate (n + 1001) (.main [])) =
      some { t with pc := .passed n } := by
  have hgap : ({ t with pc := .check n } : Torture).step (.main []) =
      some { t with pc := .probe n (n + 1) } := by
    show some (Torture.read { t with pc := .check n } n _) = _
    rw [Torture.read, h.counted.get, h.counted.counts.absent n le_rfl]
  have hn : ({ t with pc := .check n } : Torture).Holds n :=
    ⟨h.counted, h.prev, le_rfl, (h.pc_at hpc).2⟩
  have hprobe := @run_probe { t with pc := .probe n (n + 1) } n (@check _ _ _ hn _ rfl [] hgap)
    (n + 1) 999 rfl (by omega)
  have hlen : n + 1001 = n + (999 + 1 + 1) := rfl
  rw [hlen, List.replicate_add, Steps.run_append, h.run_check hpc (Nat.zero_add n), Option.bind_some,
    List.replicate_succ, Steps.run, hgap, Option.bind_some]
  exact hprobe

end Torture.Holds

theorem Torture.holds_start : Torture.start.Holds 0 where
  counted := by
    have hnil : ∀ e ∈ (DB.create writeOptions).entries, False := by simp [DB.entries_create]
    refine ⟨⟨.create writeOptions, ⟨fun a ha => (hnil a ha).elim, fun e he => (hnil e he).elim,
      fun e he => (hnil e he).elim⟩, by simp [Torture.start, DB.create, Job.pieces], rfl, rfl,
      by simp [Torture.start, DB.create]⟩, ⟨by simp, fun i _ => ?_⟩, fun e he => (hnil e he).elim⟩
    show visible (DB.create writeOptions).entries (tortureKey i) uint64Max = none
    rw [DB.entries_create]
    rfl
  prev := le_rfl
  pc := ⟨le_rfl, rfl⟩

/-- One `put` returns, and the next one has its sequence number. -/
def secondPut : List TortureEvent := List.replicate 5 (.main [])

/-- The writer is killed while it logs that one. -/
def killedInPut : CrashAt := ⟨.apply [], 0, 30, [], {}, []⟩

end Keystone
