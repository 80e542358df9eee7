/-
  Versioned entries, and what a lookup in a set of them means.

  `Entry` is `Memtable::Entry`, `SSTable::Entry` and `MergeEntry`, which have the same fields.
  Files and memtables are ordered by key ascending and, within a key, by sequence number
  descending (`Entry.Before`).
-/
import Keystone.Lib.Newest
import Keystone.Coding

namespace Keystone

/-- `UINT64_MAX`: the snapshot of a read of the present, and the oldest live snapshot when
    there is none. -/
def uint64Max : UInt64 := 0xFFFFFFFFFFFFFFFF

theorem le_uint64Max (s : UInt64) : s ≤ uint64Max := by
  have h := s.toNat_lt
  rw [UInt64.le_iff_toNat_le]
  have : uint64Max.toNat = 2 ^ 64 - 1 := rfl
  omega

/-- One version of a key. -/
structure Entry where
  key : Bytes
  value : Bytes
  tombstone : Bool
  seq : UInt64
  deriving DecidableEq, Repr

/-- The outcome of a point lookup: `SSTable::LookupResult`, and `Memtable::Status` with its
    out-parameter. -/
inductive LookupResult where
  | notFound
  | found (value : Bytes)
  | deleted
  deriving DecidableEq, Repr

namespace Entry

/-- What a lookup reports when it stops at this entry. -/
def result (e : Entry) : LookupResult :=
  if e.tombstone then .deleted else .found e.value

/-- The value a reader sees at this entry; a tombstone shows none. -/
def shown (e : Entry) : Option Bytes :=
  if e.tombstone then none else some e.value

/-- Strictly earlier in (key ascending, seq descending) order. -/
def Before (a b : Entry) : Prop := a.key < b.key ∨ a.key = b.key ∧ b.seq < a.seq

instance (a b : Entry) : Decidable (Before a b) := inferInstanceAs (Decidable (_ ∨ _))

theorem Before.trans {a b c : Entry} (h1 : a.Before b) (h2 : b.Before c) : a.Before c := by
  rcases h1 with h1 | ⟨e1, h1⟩ <;> rcases h2 with h2 | ⟨e2, h2⟩
  · exact Or.inl (lt_trans h1 h2)
  · exact Or.inl (e2 ▸ h1)
  · exact Or.inl (e1 ▸ h2)
  · exact Or.inr ⟨e1.trans e2, lt_trans h2 h1⟩

theorem Before.seq_lt {a b : Entry} (h : a.Before b) (hk : a.key = b.key) : b.seq < a.seq := by
  rcases h with h | ⟨-, h⟩
  · exact absurd hk (ne_of_lt h)
  · exact h

/-- The order in which equal pairs may repeat. -/
def BeforeEq (a b : Entry) : Prop := a.key < b.key ∨ a.key = b.key ∧ b.seq ≤ a.seq

instance : DecidableRel BeforeEq := fun _ _ => inferInstanceAs (Decidable (_ ∨ _))

theorem Before.le {a b : Entry} (h : a.Before b) : a.BeforeEq b :=
  Or.imp_right (fun he => ⟨he.1, le_of_lt he.2⟩) h

theorem BeforeEq.key_le {a b : Entry} (h : a.BeforeEq b) : a.key ≤ b.key := by
  rcases h with h | ⟨e, -⟩
  · exact le_of_lt h
  · exact le_of_eq e

theorem BeforeEq.seq_le {a b : Entry} (h : a.BeforeEq b) (hk : a.key = b.key) : b.seq ≤ a.seq := by
  rcases h with h | ⟨-, h⟩
  · exact absurd hk (ne_of_lt h)
  · exact h

instance : Std.Total BeforeEq where
  total a b := by
    rcases lt_trichotomy a.key b.key with h | h | h
    · exact Or.inl (Or.inl h)
    · exact (le_total b.seq a.seq).imp (fun hs => Or.inr ⟨h, hs⟩) fun hs => Or.inr ⟨h.symm, hs⟩
    · exact Or.inr (Or.inl h)

instance : IsTrans Entry BeforeEq where
  trans _ _ _ := by
    rintro (h | ⟨h, hs⟩) (h' | ⟨h', hs'⟩)
    · exact Or.inl (lt_trans h h')
    · exact Or.inl (h' ▸ h)
    · exact Or.inl (h ▸ h')
    · exact Or.inr ⟨h.trans h', le_trans hs' hs⟩

theorem not_before_iff (a b : Entry) : ¬ b.Before a ↔ a.BeforeEq b := by
  unfold Before BeforeEq
  rw [not_or, not_and, not_lt, not_lt]
  constructor
  · rintro ⟨h1, h2⟩
    rcases eq_or_lt_of_le h1 with h | h
    · exact Or.inr ⟨h, h2 h.symm⟩
    · exact Or.inl h
  · rintro (h | ⟨h1, h2⟩)
    · exact ⟨le_of_lt h, fun he => absurd he (ne_of_gt h)⟩
    · exact ⟨le_of_eq h1, fun _ => h2⟩

end Entry

/-- Sorted by key ascending and, within one key, by seq strictly descending. -/
def Sorted (es : List Entry) : Prop := es.Pairwise Entry.Before

instance (es : List Entry) : Decidable (Sorted es) := inferInstanceAs (Decidable (es.Pairwise _))

/-- Sorted by key ascending and, within one key, by seq descending; equal pairs may repeat. -/
def SortedLe (es : List Entry) : Prop := es.Pairwise Entry.BeforeEq

instance (es : List Entry) : Decidable (SortedLe es) :=
  inferInstanceAs (Decidable (es.Pairwise _))

theorem Sorted.le {es : List Entry} (h : Sorted es) : SortedLe es :=
  h.imp Entry.Before.le

theorem SortedLe.keys {es : List Entry} (h : SortedLe es) :
    es.Pairwise fun a b => a.key ≤ b.key :=
  h.imp Entry.BeforeEq.key_le

/-- In a sorted list, skipping the smaller keys leaves exactly the others. -/
theorem dropWhile_eq_filter {l : List Entry} (hs : SortedLe l) (target : Bytes) :
    (l.dropWhile fun e => e.key < target) = l.filter fun e => target ≤ e.key := by
  induction l with
  | nil => rfl
  | cons e l ih =>
    have hs' := List.pairwise_cons.1 hs
    by_cases hlt : e.key < target
    · rw [List.dropWhile_cons_of_pos (by simpa using hlt),
        List.filter_cons_of_neg (by simpa using hlt), ih hs'.2]
    · rw [List.dropWhile_cons_of_neg (by simpa using hlt), eq_comm, List.filter_eq_self]
      intro x hx
      rw [decide_eq_true_eq]
      rcases List.mem_cons.1 hx with rfl | hx
      · exact not_lt.1 hlt
      · exact le_trans (not_lt.1 hlt) ((List.pairwise_cons.1 hs.keys).1 x hx)

/-- Equal (key, seq) pairs are the same entry. -/
abbrev UniqueSeqs (es : List Entry) : Prop := Newest.Unique Entry.key Entry.seq es

/-- There is one way to sort entries with unique numbers. -/
theorem SortedLe.eq_of_perm {es es' : List Entry} (hu : UniqueSeqs es) (hs : SortedLe es)
    (hs' : SortedLe es') (hp : es.Perm es') : es = es' := by
  refine hp.eq_of_pairwise (fun a b ha hb hab hba => ?_) hs hs'
  have hk : a.key = b.key := le_antisymm hab.key_le hba.key_le
  exact hu a ha b (hp.mem_iff.2 hb) hk (le_antisymm (hba.seq_le hk.symm) (hab.seq_le hk))

/-- With distinct numbers nothing repeats. -/
theorem SortedLe.strict {es : List Entry} (hs : SortedLe es) (hnd : (es.map Entry.seq).Nodup) :
    Sorted es := by
  refine (List.Pairwise.and hs (List.pairwise_map.1 hnd)).imp fun ⟨hle, hne⟩ => ?_
  exact Or.imp_right (fun h => ⟨h.1, lt_of_le_of_ne h.2 (Ne.symm hne)⟩) hle

theorem Sorted.uniqueSeqs {es : List Entry} (hs : Sorted es) : UniqueSeqs es :=
  Newest.unique_of_pairwise (hs.imp fun h => h.seq_lt)

/-- The newest entry of `k` with `seq ≤ s`. -/
def newestEntry (es : List Entry) (k : Bytes) (s : UInt64) : Option Entry :=
  Newest.newest Entry.key Entry.seq k s es

/-- What a point lookup of `k` at `s` over a whole list has to report. -/
def lookupIn (es : List Entry) (k : Bytes) (s : UInt64) : LookupResult :=
  match newestEntry es k s with
  | none => .notFound
  | some e => e.result

/-- The order of the entries does not matter. -/
theorem newestEntry_perm {es es' : List Entry} (hu : UniqueSeqs es) (hp : es'.Perm es) (k : Bytes)
    (s : UInt64) : newestEntry es' k s = newestEntry es k s :=
  Newest.newest_congr (hu.subset fun _ he => hp.mem_iff.1 he) fun _ _ => hp.mem_iff

/-- In a sorted list the newest entry is the first hit. -/
theorem newestEntry_eq_find {es : List Entry} (hs : SortedLe es) (k : Bytes) (s : UInt64) :
    newestEntry es k s = es.find? fun e => e.key = k ∧ e.seq ≤ s :=
  Newest.newest_eq_find (hs.imp Entry.BeforeEq.seq_le)

theorem lookupIn_eq_find {es : List Entry} (hs : SortedLe es) (k : Bytes) (s : UInt64) :
    lookupIn es k s =
      ((es.find? fun e => e.key = k ∧ e.seq ≤ s).map Entry.result).getD .notFound := by
  unfold lookupIn
  rw [newestEntry_eq_find hs]
  cases es.find? fun e => decide (e.key = k ∧ e.seq ≤ s) <;> rfl

/-- The value visible at `s`: that of the newest entry, a tombstone counting as absent. -/
def visible (es : List Entry) (k : Bytes) (s : UInt64) : Option Bytes :=
  (newestEntry es k s).bind Entry.shown

end Keystone
