/-
  A key of 2^32 bytes in the log.

  `WAL::append_batch` casts a length to 32 bits and computes the checksum over the whole key;
  `replay` takes the key for empty and computes it over the header. Four bytes at the end of the
  key make the two agree (`crc32_last_four`). The reader then goes on inside the key, which can
  hold a whole record of its own, with any sequence number.

  `forged_not_fresh`: after one such write and a crash, `next_seq_` is not above what was
  recovered.
-/
import Keystone.Corruption
import Keystone.Freshness

namespace Keystone

/-! ## The last four bytes -/

theorem crc32_append_injective {p x y : Bytes} (hlen : x.length = y.length) (h4 : x.length ≤ 4)
    (h : crc32 (p ++ x) = crc32 (p ++ y)) : x = y := by
  by_contra hne
  refine crc32_burst ⟨by simp [hlen], fun he => hne (List.append_cancel_left he),
    p.length, fun i hi => ?_⟩ h
  have hle : p.length ≤ i := by
    by_contra hlt
    rw [List.getElem?_append_left (by omega), List.getElem?_append_left (by omega)] at hi
    exact hi rfl
  refine ⟨hle, ?_⟩
  by_contra hge
  rw [List.getElem?_eq_none (by simp; omega), List.getElem?_eq_none (by simp; omega)] at hi
  exact hi rfl

/-- Behind any bytes, four more give any checksum. -/
theorem crc32_last_four (p : Bytes) (c : UInt32) : ∃ x, x.length = 4 ∧ crc32 (p ++ x) = c := by
  have hinj : Function.Injective fun g : Fin 4 → UInt8 => crc32 (p ++ List.ofFn g) :=
    fun g g' h => List.ofFn_injective (crc32_append_injective (by simp) (by simp) h)
  have hcard : Nat.card UInt32 ≤ Nat.card (Fin 4 → UInt8) := by
    have h8 : Nat.card UInt8 = 2 ^ 8 := by
      rw [Nat.card_congr (⟨UInt8.toFin, UInt8.ofFin, fun x => by simp, fun x => by simp⟩ :
        UInt8 ≃ Fin (2 ^ 8)), Nat.card_fin]
    have h32 : Nat.card UInt32 = 2 ^ 32 := by
      rw [Nat.card_congr (⟨UInt32.toFin, UInt32.ofFin, fun x => by simp, fun x => by simp⟩ :
        UInt32 ≃ Fin (2 ^ 32)), Nat.card_fin]
    rw [Nat.card_pi, h32, Finset.prod_const, h8, Finset.card_univ, Fintype.card_fin]
    norm_num
  obtain ⟨g, hg⟩ := (hinj.bijective_of_nat_card_le hcard).2 c
  exact ⟨List.ofFn g, List.length_ofFn, hg⟩

/-! ## A record inside a key -/

namespace Wal

/-- A key of 2^32 bytes with the checksum of no key at all: the reader finds a record without a
    key, and the key behind it. -/
theorem encodeRecord_wrapped {seq : UInt64} {key : Bytes} (hlen : key.length = 2 ^ 32)
    (hcrc : crc32 (recordBody ⟨.put, seq, [], []⟩ ++ key) =
      crc32 (recordBody ⟨.put, seq, [], []⟩)) :
    encodeRecord ⟨.put, seq, key, []⟩ = encodeRecord ⟨.put, seq, [], []⟩ ++ key := by
  have hwrap : UInt32.ofNat key.length = UInt32.ofNat 0 := by
    rw [hlen]
    rfl
  have hbody : recordBody ⟨.put, seq, key, []⟩ = recordBody ⟨.put, seq, [], []⟩ ++ key := by
    simp [recordBody, hwrap]
  rw [encodeRecord, hbody, hcrc, encodeRecord, List.append_assoc]

/-- Any record that the reader takes can be inside a key. -/
theorem replay_wrapped (seq : UInt64) {r : Record} (hr : r.Fits) :
    ∃ key : Bytes, key.length = 2 ^ 32 ∧ ∃ more,
      replay (some (encodeRecord ⟨.put, seq, key, []⟩)) = ⟨.put, seq, [], []⟩ :: r :: more := by
  have hfit : (encodeRecord r).length ≤ 2 ^ 32 - 4 := by
    have h1 := hr.1
    have h2 := hr.2
    unfold maxFieldLen at h1 h2
    rw [encodeRecord_length]
    omega
  obtain ⟨x, hx, hcrc⟩ := crc32_last_four (recordBody ⟨.put, seq, [], []⟩ ++ (encodeRecord r ++
    List.replicate (2 ^ 32 - 4 - (encodeRecord r).length) 0)) (crc32 (recordBody ⟨.put, seq, [], []⟩))
  have hlen : (encodeRecord r ++ List.replicate (2 ^ 32 - 4 - (encodeRecord r).length) 0 ++
      x).length = 2 ^ 32 := by
    rw [List.length_append, List.length_append, List.length_replicate, hx]
    omega
  refine ⟨_, hlen, Frame.records readRecord
    (List.replicate (2 ^ 32 - 4 - (encodeRecord r).length) 0 ++ x), ?_⟩
  rw [List.append_assoc] at hcrc
  rw [encodeRecord_wrapped hlen hcrc, replay]
  have hback : ∀ a ∈ [⟨.put, seq, [], []⟩, r], Frame.TakesBack readRecord encodeRecord a := by
    intro a ha
    rcases List.mem_pair.1 ha with rfl | rfl
    · exact takesBack_readRecord ⟨Nat.zero_le _, Nat.zero_le _⟩
    · exact takesBack_readRecord hr
  have happ := Frame.records_append consumes_readRecord hback
    (List.replicate (2 ^ 32 - 4 - (encodeRecord r).length) 0 ++ x)
  simpa using happ

end Wal

/-! ## The store -/

/-- The write of `key`, and a crash as soon as the log has it. -/
def wrappedRun (key : Bytes) : List LifeEvent :=
  [.run (.assign [.put key []]), .crash ⟨.apply [], 1, 0, [], {}, []⟩]

theorem run_wrappedRun (key : Bytes) :
    ∃ db, Steps.run DB.live (DB.create {}) (wrappedRun key) = some db ∧
      db.memtable = Memtable.fresh.applyAll
        (Wal.replay (some (Wal.encodeRecord ⟨.put, 1, key, []⟩))) [] := by
  have hdir : (DB.crashDir { DB.create {} with inflight := [⟨.put, 1, key, []⟩], nextSeq := 2 }
      ⟨.apply [], 1, 0, [], {}, []⟩).wal = some (Wal.encodeRecord ⟨.put, 1, key, []⟩) := by
    show some ([] ++ ([(⟨.put, 1, key, []⟩ : Wal.Record)].flatMap Wal.encodeRecord)) = _
    simp
  rw [← hdir]
  exact ⟨_, rfl, rfl⟩

/-- One write to a new store and a crash: no number is above what the open recovers. -/
theorem forged_not_fresh : ∃ key : Bytes, key.length = 2 ^ 32 ∧
    ∃ db, Steps.run DB.live (DB.create {}) (wrappedRun key) = some db ∧
      totalWrites (wrappedRun key) = 1 ∧ ∀ q, ¬ db.FreshAt q := by
  obtain ⟨key, hlen, more, hreplay⟩ :=
    @Wal.replay_wrapped 1 ⟨.put, 18446744073709551615, [], []⟩ ⟨Nat.zero_le _, Nat.zero_le _⟩
  obtain ⟨db, hrun, hmem⟩ := run_wrappedRun key
  refine ⟨key, hlen, db, hrun, rfl, fun q hfresh => ?_⟩
  have hlt := hfresh.mem (Wal.Record.entry ⟨.put, 18446744073709551615, [], []⟩) (by
    rw [hmem, hreplay]
    exact Memtable.mem_applyAll.2 (Or.inl ⟨_, by simp, rfl⟩))
  have hq := q.toNat_lt
  have := UInt64.lt_iff_toNat_lt.1 hlt
  change 18446744073709551615 < q.toNat at this
  omega

end Keystone
