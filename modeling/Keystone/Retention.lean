/-
  What a compaction round keeps, and that readers do not notice.

  * `retain_eq_keptFrom`: the loop follows the rule `Keeps`, entry by entry.
  * `mem_retain_start`: the kept entries of a sorted stream as a set.
  * `visible_retain`: replacing the merged entries by the kept ones changes no value visible
    at a snapshot the round respects, whatever other entries there are, if for a tombstone
    that may be dropped every other entry of its key is at least as new.
  * `merge_loop_keeps`: the output files of the loop against the rule.
-/
import Keystone.MergeLoop

namespace Keystone

/-- `e` is the newest version of its key at or below `oldestSnap`. -/
def Anchor (oldestSnap : UInt64) (es : List Entry) (e : Entry) : Prop :=
  e.seq ≤ oldestSnap ∧ ∀ e' ∈ es, e'.key = e.key → e'.seq ≤ oldestSnap → e'.seq ≤ e.seq

/-- The loop has passed the anchor of `k`. -/
def Retention.Anchored (st : Retention) (k : Bytes) : Prop :=
  st.prevKey = k ∧ st.keptAnchor = true

section Retain

variable (oldestSnap : UInt64) (isBottommost : Bool)

/-- The three ways of `keepEntry`. -/
theorem keepEntry_cases (st : Retention) (e : Entry) :
    (oldestSnap < e.seq ∧ (keepEntry oldestSnap isBottommost st e).1 = true ∧
      ((keepEntry oldestSnap isBottommost st e).2.Anchored e.key ↔ st.Anchored e.key)) ∨
    (e.seq ≤ oldestSnap ∧ ¬ st.Anchored e.key ∧
      (keepEntry oldestSnap isBottommost st e).1 = (! (e.tombstone && isBottommost)) ∧
      (keepEntry oldestSnap isBottommost st e).2.Anchored e.key) ∨
    (e.seq ≤ oldestSnap ∧ st.Anchored e.key ∧
      (keepEntry oldestSnap isBottommost st e).1 = false ∧
      (keepEntry oldestSnap isBottommost st e).2.Anchored e.key) := by
  unfold keepEntry Retention.Anchored
  by_cases hq : oldestSnap < e.seq
  · left
    by_cases hk : e.key = st.prevKey
    · simp [hk, hq]
    · simp [hk, hq, Ne.symm hk]
  · right
    rw [if_neg hq]
    by_cases hk : e.key = st.prevKey
    · cases ha : st.keptAnchor
      · left
        simp [hk, ha, not_lt.1 hq]
      · right
        simp [hk, ha, not_lt.1 hq]
    · left
      simp [hk, Ne.symm hk, not_lt.1 hq]

theorem keepEntry_prevKey (st : Retention) (e : Entry) :
    (keepEntry oldestSnap isBottommost st e).2.prevKey = e.key := by
  have h : (if e.key ≠ st.prevKey then (⟨e.key, false⟩ : Retention) else st).prevKey = e.key := by
    split
    · rfl
    · rename_i hk
      exact (not_not.1 hk).symm
  unfold keepEntry
  generalize (if e.key ≠ st.prevKey then (⟨e.key, false⟩ : Retention) else st) = st' at h
  simp only
  split
  · exact h
  · split
    · exact h
    · exact h

end Retain

/-! ## The kept entries by position -/

/-- The rule for `e` behind the entries `earlier` of the stream: it is above the oldest
    snapshot, or the first of its key that is not, and then no tombstone of a bottommost
    round. -/
def Keeps (oldestSnap : UInt64) (isBottommost : Bool) (earlier : List Entry) (e : Entry) : Prop :=
  oldestSnap < e.seq ∨ (∀ e' ∈ earlier, e'.key = e.key → oldestSnap < e'.seq) ∧
    ¬ (e.tombstone = true ∧ isBottommost = true)

instance (oldestSnap : UInt64) (isBottommost : Bool) (earlier : List Entry) (e : Entry) :
    Decidable (Keeps oldestSnap isBottommost earlier e) :=
  inferInstanceAs (Decidable (_ ∨ _ ∧ _))

/-- The entries of a stream that the rule keeps, `earlier` being in front of it. -/
def keptFrom (oldestSnap : UInt64) (isBottommost : Bool) :
    (earlier stream : List Entry) → List Entry
  | _, [] => []
  | earlier, e :: es =>
    if Keeps oldestSnap isBottommost earlier e then
      e :: keptFrom oldestSnap isBottommost (earlier ++ [e]) es
    else keptFrom oldestSnap isBottommost (earlier ++ [e]) es

section Kept

variable {oldestSnap : UInt64} {isBottommost : Bool}

theorem keptFrom_sublist (earlier es : List Entry) :
    (keptFrom oldestSnap isBottommost earlier es).Sublist es := by
  induction es generalizing earlier with
  | nil => exact List.Sublist.slnil
  | cons e es ih =>
    rw [keptFrom]
    split
    · exact (ih _).cons_cons e
    · exact (ih _).cons e

theorem keptFrom_append (earlier es es' : List Entry) :
    keptFrom oldestSnap isBottommost earlier (es ++ es') =
      keptFrom oldestSnap isBottommost earlier es ++
        keptFrom oldestSnap isBottommost (earlier ++ es) es' := by
  induction es generalizing earlier with
  | nil => simp [keptFrom]
  | cons e es ih =>
    simp only [List.cons_append, keptFrom, ih, List.append_assoc, List.nil_append]
    split <;> rfl

/-- The kept entries, each with what is in front of it. -/
theorem mem_keptFrom {earlier es : List Entry} {x : Entry} :
    x ∈ keptFrom oldestSnap isBottommost earlier es ↔
      ∃ pre post, es = pre ++ x :: post ∧ Keeps oldestSnap isBottommost (earlier ++ pre) x := by
  constructor
  · intro hx
    induction es generalizing earlier with
    | nil => simp [keptFrom] at hx
    | cons a es ih =>
      have hrest : x ∈ keptFrom oldestSnap isBottommost (earlier ++ [a]) es →
          ∃ pre post, a :: es = pre ++ x :: post ∧
            Keeps oldestSnap isBottommost (earlier ++ pre) x := by
        intro h
        obtain ⟨pre, post, rfl, hkeep⟩ := ih h
        exact ⟨a :: pre, post, rfl, by simpa using hkeep⟩
      rw [keptFrom] at hx
      split at hx
      · rename_i hkeep
        rcases List.mem_cons.1 hx with rfl | hx
        · exact ⟨[], es, rfl, by simpa using hkeep⟩
        · exact hrest hx
      · exact hrest hx
  · rintro ⟨pre, post, rfl, hkeep⟩
    rw [keptFrom_append, keptFrom, if_pos hkeep]
    simp

/-- A kept entry at or below the oldest snapshot is the first of its key. -/
theorem first_of_mem_keptFrom {earlier es : List Entry} {x : Entry}
    (hx : x ∈ keptFrom oldestSnap isBottommost earlier es) (hle : x.seq ≤ oldestSnap) :
    ∀ e ∈ earlier, e.key = x.key → oldestSnap < e.seq := by
  obtain ⟨pre, post, -, hkeep⟩ := mem_keptFrom.1 hx
  exact fun e he => (hkeep.resolve_left (not_lt.2 hle)).1 e (List.mem_append_left _ he)

/-- No two kept versions of a key are at or below the oldest snapshot. -/
theorem keptFrom_pairwise (earlier es : List Entry) :
    (keptFrom oldestSnap isBottommost earlier es).Pairwise
      fun a b => a.key = b.key → b.seq ≤ oldestSnap → oldestSnap < a.seq := by
  induction es generalizing earlier with
  | nil => exact List.Pairwise.nil
  | cons a es ih =>
    rw [keptFrom]
    split
    · refine List.pairwise_cons.2 ⟨fun b hb hk hle => ?_, ih _⟩
      exact first_of_mem_keptFrom hb hle a (by simp) hk
    · exact ih _

theorem keptFrom_eq_self {earlier es : List Entry}
    (hp : (earlier ++ es).Pairwise
      fun a b => a.key = b.key → b.seq ≤ oldestSnap → oldestSnap < a.seq)
    (hm : ∀ e ∈ es, oldestSnap < e.seq ∨ ¬ (e.tombstone = true ∧ isBottommost = true)) :
    keptFrom oldestSnap isBottommost earlier es = es := by
  induction es generalizing earlier with
  | nil => rfl
  | cons e es ih =>
    have hkeep : Keeps oldestSnap isBottommost earlier e := by
      rcases lt_or_ge oldestSnap e.seq with hlt | hle
      · exact Or.inl hlt
      · refine Or.inr ⟨fun e' he' hk => ?_, (hm e List.mem_cons_self).resolve_left (not_lt.2 hle)⟩
        exact (List.pairwise_append.1 hp).2.2 e' he' e List.mem_cons_self hk hle
    rw [keptFrom, if_pos hkeep, ih (by simpa using hp) fun x hx => hm x (List.mem_cons_of_mem e hx)]

/-- What a bottommost round keeps, a further round keeps whole. -/
theorem keptFrom_bottommost (es : List Entry) :
    keptFrom oldestSnap isBottommost [] (keptFrom oldestSnap true [] es) =
      keptFrom oldestSnap true [] es := by
  refine keptFrom_eq_self (keptFrom_pairwise [] es) fun e he => ?_
  obtain ⟨pre, post, -, hkeep⟩ := mem_keptFrom.1 he
  exact hkeep.imp_right fun h hdrop => h.2 ⟨hdrop.1, rfl⟩

/-- What the two loop variables stand for: the anchor of the largest key so far is passed. -/
def Retention.Tracks (oldestSnap : UInt64) (earlier : List Entry) (st : Retention) : Prop :=
  ∀ k, (∀ e ∈ earlier, e.key ≤ k) →
    (st.Anchored k ↔ ∃ e ∈ earlier, e.key = k ∧ e.seq ≤ oldestSnap)

theorem Retention.Tracks.keepEntry {earlier : List Entry} {st : Retention} {e : Entry}
    (h : st.Tracks oldestSnap earlier) (hs : ∀ x ∈ earlier, x.key ≤ e.key) :
    (keepEntry oldestSnap isBottommost st e).2.Tracks oldestSnap (earlier ++ [e]) := by
  intro k hk
  have hpast := h e.key hs
  by_cases hek : e.key = k
  · subst hek
    rcases keepEntry_cases oldestSnap isBottommost st e with
      ⟨hq, -, hanc⟩ | ⟨hq, -, -, hanc⟩ | ⟨hq, -, -, hanc⟩
    · rw [hanc, hpast]
      simp [not_le.2 hq]
    · exact iff_of_true hanc ⟨e, by simp, rfl, hq⟩
    · exact iff_of_true hanc ⟨e, by simp, rfl, hq⟩
  · -- a larger key has not been seen
    refine iff_of_false (fun hanc => ?_) ?_
    · exact hek (by rw [← hanc.1, keepEntry_prevKey])
    · rintro ⟨x, hx, hxk, -⟩
      have hle : e.key ≤ k := hk e (by simp)
      rcases List.mem_append.1 hx with hx | hx
      · exact hek (le_antisymm hle (hxk ▸ hs x hx))
      · exact hek (List.mem_singleton.1 hx ▸ hxk)

/-- **The loop follows the rule**: induction along the stream, the two variables tracking the
    entries passed. -/
theorem retain_eq_keptFrom {earlier es : List Entry} {st : Retention}
    (hs : SortedLe (earlier ++ es)) (hst : st.Tracks oldestSnap earlier) :
    retain oldestSnap isBottommost st es = keptFrom oldestSnap isBottommost earlier es := by
  induction es generalizing earlier st with
  | nil => rfl
  | cons e es ih =>
    have hle : ∀ x ∈ earlier, x.key ≤ e.key := fun x hx =>
      ((List.pairwise_append.1 hs).2.2 x hx e (by simp)).key_le
    have hs' : SortedLe (earlier ++ [e] ++ es) := by simpa using hs
    have hkeep : (keepEntry oldestSnap isBottommost st e).1 = true ↔
        Keeps oldestSnap isBottommost earlier e := by
      have hpast := hst e.key hle
      unfold Keeps
      rcases keepEntry_cases oldestSnap isBottommost st e with
        ⟨hq, hk, -⟩ | ⟨hq, hna, hk, -⟩ | ⟨hq, ha, hk, -⟩
      · simp [hq, hk]
      · have hfirst : ∀ e' ∈ earlier, e'.key = e.key → oldestSnap < e'.seq := fun x hx hxk =>
          not_le.1 fun hq' => hna (hpast.2 ⟨x, hx, hxk, hq'⟩)
        rw [hk]
        simp only [not_lt.2 hq, false_or]
        rw [and_iff_right hfirst]
        cases e.tombstone <;> simp
      · obtain ⟨x, hx, hxk, hq'⟩ := hpast.1 ha
        rw [hk]
        refine iff_of_false (by simp) fun h => ?_
        exact not_lt.2 hq' ((h.resolve_left (not_lt.2 hq)).1 x hx hxk)
    rw [retain, keptFrom, ih hs' (hst.keepEntry hle)]
    simp only [hkeep]

theorem retain_start_eq_keptFrom {es : List Entry} (hs : SortedLe es) :
    retain oldestSnap isBottommost ⟨[], false⟩ es = keptFrom oldestSnap isBottommost [] es := by
  refine retain_eq_keptFrom hs fun k _ => ?_
  exact iff_of_false (fun h => Bool.noConfusion h.2) (by simp)

/-- What a reader at or above the oldest snapshot finds among the kept entries. -/
theorem newestEntry_keptFrom {es : List Entry} (hs : SortedLe es) (k : Bytes) {s : UInt64}
    (hsnap : oldestSnap ≤ s) :
    newestEntry (keptFrom oldestSnap isBottommost [] es) k s = newestEntry es k s ∨
    (isBottommost = true ∧ newestEntry (keptFrom oldestSnap isBottommost [] es) k s = none ∧
      ∃ e, newestEntry es k s = some e ∧ e.tombstone = true) := by
  have hs' : SortedLe (keptFrom oldestSnap isBottommost [] es) :=
    List.Pairwise.sublist (keptFrom_sublist [] es) hs
  rw [newestEntry_eq_find hs, newestEntry_eq_find hs']
  cases hfind : es.find? fun e => decide (e.key = k ∧ e.seq ≤ s) with
  | none =>
    left
    rw [List.find?_eq_none] at hfind ⊢
    exact fun e he => hfind e ((keptFrom_sublist [] es).subset he)
  | some e =>
    obtain ⟨hit, pre, post, rfl, hpre⟩ := List.find?_eq_some_iff_append.1 hfind
    obtain ⟨rfl, hle⟩ : e.key = k ∧ e.seq ≤ s := of_decide_eq_true hit
    have hmiss : ∀ x ∈ pre, x.key = e.key → s < x.seq := fun x hx hk => by
      have h := hpre x hx
      simpa [hk] using h
    -- what is kept in front of the hit is no hit
    have hfront : (keptFrom oldestSnap isBottommost [] pre).find?
        (fun x => decide (x.key = e.key ∧ x.seq ≤ s)) = none := by
      rw [List.find?_eq_none]
      intro x hx hxhit
      obtain ⟨hk, hle'⟩ : x.key = e.key ∧ x.seq ≤ s := of_decide_eq_true hxhit
      exact not_lt.2 hle' (hmiss x ((keptFrom_sublist [] pre).subset hx) hk)
    have hfirst : ∀ x ∈ pre, x.key = e.key → oldestSnap < x.seq := fun x hx hk =>
      lt_of_le_of_lt hsnap (hmiss x hx hk)
    rw [keptFrom_append, List.find?_append, hfront, Option.none_or, List.nil_append, keptFrom]
    by_cases hkeep : Keeps oldestSnap isBottommost pre e
    · left
      rw [if_pos hkeep, List.find?_cons_of_pos (by simpa using hle)]
    · right
      have hq : e.seq ≤ oldestSnap := not_lt.1 fun h => hkeep (Or.inl h)
      have hdrop : e.tombstone = true ∧ isBottommost = true :=
        not_not.1 fun h => hkeep (Or.inr ⟨hfirst, h⟩)
      refine ⟨hdrop.2, ?_, e, rfl, hdrop.1⟩
      rw [if_neg hkeep, List.find?_eq_none]
      intro x hx hxhit
      obtain ⟨hxk, -⟩ : x.key = e.key ∧ x.seq ≤ s := of_decide_eq_true hxhit
      -- behind the hit every version of its key is at or below the oldest snapshot too
      have hxq : x.seq ≤ e.seq := by
        have hpair := (List.pairwise_cons.1 (List.pairwise_append.1 hs).2.1).1 x
          ((keptFrom_sublist _ post).subset hx)
        exact hpair.seq_le hxk.symm
      have h := first_of_mem_keptFrom hx (le_trans hxq hq) e (by simp) hxk.symm
      exact not_lt.2 hq h

/-- The kept entries of a whole round as a set: everything above the oldest snapshot, and the
    anchor of each key, unless it is a tombstone of a bottommost round. -/
theorem mem_retain_start {es : List Entry} (hs : SortedLe es) (hu : UniqueSeqs es) (x : Entry) :
    x ∈ retain oldestSnap isBottommost ⟨[], false⟩ es ↔ x ∈ es ∧
      (oldestSnap < x.seq ∨ (Anchor oldestSnap es x ∧
        ¬ (x.tombstone = true ∧ isBottommost = true))) := by
  rw [retain_start_eq_keptFrom hs, mem_keptFrom]
  constructor
  · rintro ⟨pre, post, rfl, hkeep⟩
    refine ⟨by simp, ?_⟩
    by_cases hq : oldestSnap < x.seq
    · exact Or.inl hq
    obtain ⟨hfirst, hdrop⟩ := hkeep.resolve_left hq
    refine Or.inr ⟨⟨not_lt.1 hq, fun e he hk hle => ?_⟩, hdrop⟩
    rcases List.mem_append.1 he with he | he
    · exact absurd hle (not_le.2 (hfirst e he hk))
    rcases List.mem_cons.1 he with rfl | he
    · exact le_rfl
    · have hpair := (List.pairwise_cons.1 (List.pairwise_append.1 hs).2.1).1 e he
      exact hpair.seq_le hk.symm
  · rintro ⟨hx, hcase⟩
    obtain ⟨pre, post, rfl, hnot⟩ := List.eq_append_cons_of_mem hx
    refine ⟨pre, post, rfl, hcase.imp_right fun ⟨hanc, hdrop⟩ => ⟨fun e he hk => ?_, hdrop⟩⟩
    by_contra hq
    -- an older hit in front would be the anchor itself
    have h1 := hanc.2 e (List.mem_append_left _ he) hk (not_lt.1 hq)
    have h2 := ((List.pairwise_append.1 hs).2.2 e he x (by simp)).seq_le hk
    have hex : e = x := hu e (List.mem_append_left _ he) x hx hk (le_antisymm h1 h2)
    exact hnot (hex ▸ he)

/-- With no snapshot below its entries, a round keeps at most one version of each key. -/
theorem retain_keys {es : List Entry} (hs : SortedLe es) (hle : ∀ e ∈ es, e.seq ≤ oldestSnap) :
    (retain oldestSnap isBottommost ⟨[], false⟩ es).Pairwise fun a b => a.key < b.key := by
  rw [retain_start_eq_keptFrom hs]
  have hsub : (keptFrom oldestSnap isBottommost [] es).Sublist es := keptFrom_sublist [] es
  refine ((List.Pairwise.sublist hsub hs).and (keptFrom_pairwise [] es)).imp_of_mem
    fun {a b} ha hb h => ?_
  refine lt_of_le_of_ne h.1.key_le fun hk => ?_
  exact not_lt.2 (hle a (hsub.subset ha)) (h.2 hk (hle b (hsub.subset hb)))

end Kept

/-! ## What readers see -/

theorem visible_congr {l l' : List Entry} (hu : UniqueSeqs l) (hm : ∀ e, e ∈ l ↔ e ∈ l') (k : Bytes)
    (s : UInt64) : visible l k s = visible l' k s := by
  have h : newestEntry l k s = newestEntry l' k s := Newest.newest_congr hu fun e _ => hm e
  rw [visible, visible, h]

/-- The newest version of each key that `l` or the rest holds is still there, or is a dropped
    tombstone with nothing older of its key left. -/
theorem visible_of_kept {rest l kept : List Entry} {k : Bytes} {s : UInt64}
    (hu : UniqueSeqs (rest ++ l)) (hsub : ∀ e ∈ kept, e ∈ l)
    (h : ∀ e, Newest.IsNewest Entry.key Entry.seq k s (rest ++ l) e → e ∈ rest ++ kept ∨
      (e.tombstone = true ∧ ∀ e' ∈ rest ++ kept, e'.key = k → ¬ e'.seq ≤ s)) :
    visible (rest ++ kept) k s = visible (rest ++ l) k s := by
  have hsub' : ∀ e ∈ rest ++ kept, e ∈ rest ++ l := by
    intro e he
    rcases List.mem_append.1 he with he | he
    · exact List.mem_append_left _ he
    · exact List.mem_append_right _ (hsub e he)
  unfold visible newestEntry
  cases hn : Newest.newest Entry.key Entry.seq k s (rest ++ l) with
  | none =>
    have hno := Newest.newest_eq_none_iff.1 hn
    rw [Newest.newest_eq_none_iff.2 fun e he => hno e (hsub' e he)]
  | some e =>
    have he := Newest.isNewest_of_newest hn
    rcases h e he with hmem | ⟨ht, hgone⟩
    · rw [(Newest.newest_eq_some_iff (hu.subset hsub')).2
        ⟨hmem, he.key_eq, he.le, fun e' he' => he.max e' (hsub' e' he')⟩]
    · rw [Newest.newest_eq_none_iff.2 hgone]
      simp [Entry.shown, ht]

/-- **A round is invisible**: with `rest` everything outside the inputs and `l` the merged
    inputs, replacing `l` by what the round keeps changes no value visible at `s`, if `s` is at
    or above the oldest snapshot or above everything merged, and if in a bottommost round no
    entry outside is older than a merged one of its key that it does not itself hold. -/
theorem visible_retain {oldestSnap : UInt64} {isBottommost : Bool} {rest l : List Entry}
    (hs : SortedLe l) (hu : UniqueSeqs (rest ++ l))
    (hbot : isBottommost = true → ∀ t ∈ l, ∀ x ∈ rest, x.key = t.key → t.seq ≤ x.seq ∨ t ∈ rest)
    {k : Bytes} {s : UInt64} (hsnap : oldestSnap ≤ s ∨ ∀ e ∈ l, e.seq ≤ s) :
    visible (rest ++ retain oldestSnap isBottommost ⟨[], false⟩ l) k s =
      visible (rest ++ l) k s := by
  have hul : UniqueSeqs l := hu.subset fun e he => List.mem_append_right _ he
  refine visible_of_kept hu (fun e he => ((mem_retain_start hs hul e).1 he).1) fun e he => ?_
  by_cases hrest : e ∈ rest
  · exact Or.inl (List.mem_append_left _ hrest)
  have hel : e ∈ l := (List.mem_append.1 he.mem).resolve_left hrest
  by_cases hq : oldestSnap < e.seq
  · exact Or.inl (List.mem_append_right _ ((mem_retain_start hs hul e).2 ⟨hel, Or.inl hq⟩))
  have hanchor : Anchor oldestSnap l e := by
    refine ⟨not_lt.1 hq, fun e' he' hk hle => he.max e' (List.mem_append_right _ he') ?_ ?_⟩
    · rw [hk, he.key_eq]
    · exact hsnap.elim (le_trans hle) fun h => h e' he'
  by_cases hdrop : e.tombstone = true ∧ isBottommost = true
  · refine Or.inr ⟨hdrop.1, fun e' he' hk hle => ?_⟩
    have hkey : e'.key = e.key := hk.trans he.key_eq.symm
    rcases List.mem_append.1 he' with he' | he'
    · -- outside: as new as the tombstone, so the tombstone itself
      have h1 := he.max e' (List.mem_append_left _ he') hk hle
      rcases hbot hdrop.2 e hel e' he' hkey with h2 | h2
      · have := hu e' (List.mem_append_left _ he') e he.mem hkey (le_antisymm h1 h2)
        exact hrest (this ▸ he')
      · exact hrest h2
    · obtain ⟨hl', hkept⟩ := (mem_retain_start hs hul e').1 he'
      have h1 := he.max e' (List.mem_append_right _ hl') hk hle
      rcases hkept with h | ⟨ha', hnot⟩
      · exact hq (lt_of_lt_of_le h h1)
      · have h2 := ha'.2 e hel hkey.symm hanchor.1
        have := hul e' hl' e hel hkey (le_antisymm h1 h2)
        exact hnot (this ▸ hdrop)
  · exact Or.inl (List.mem_append_right _
      ((mem_retain_start hs hul e).2 ⟨hel, Or.inr ⟨hanchor, hdrop⟩⟩))

/-- **What a round keeps.** For every sorted stream the output files hold, in order, exactly
    the entries the rule keeps; at and above the oldest snapshot each key has the same newest
    entry, or none where a bottommost round dropped a tombstone; and at most one version of a
    key is at or below the oldest snapshot. -/
theorem merge_loop_keeps (oldestSnap : UInt64) (isBottommost : Bool) (targetFileSize : Nat)
    {stream : List Entry} (hs : SortedLe stream) :
    (mergeOutputs oldestSnap isBottommost targetFileSize stream).flatten =
      keptFrom oldestSnap isBottommost [] stream ∧
    (∀ k s, oldestSnap ≤ s →
      newestEntry (keptFrom oldestSnap isBottommost [] stream) k s = newestEntry stream k s ∨
      (isBottommost = true ∧
        newestEntry (keptFrom oldestSnap isBottommost [] stream) k s = none ∧
        ∃ e, newestEntry stream k s = some e ∧ e.tombstone = true)) ∧
    (keptFrom oldestSnap isBottommost [] stream).Pairwise
      fun a b => a.key = b.key → b.seq ≤ oldestSnap → oldestSnap < a.seq := by
  refine ⟨?_, fun k s hsnap => newestEntry_keptFrom hs k hsnap, keptFrom_pairwise [] stream⟩
  rw [mergeOutputs_eq, flatten_splitFiles, List.nil_append, retain_start_eq_keptFrom hs]

/-- Versions of the empty key on both sides of the oldest snapshot, the anchor a tombstone. -/
def emptyKeyStream : List Entry :=
  [⟨[], [1], false, 5⟩, ⟨[], [], true, 3⟩, ⟨[], [2], false, 2⟩, ⟨[97], [3], false, 1⟩]

theorem merge_loop_keeps_emptyKey :
    SortedLe emptyKeyStream ∧
      (mergeOutputs 4 true 1000 emptyKeyStream).flatten = keptFrom 4 true [] emptyKeyStream ∧
      keptFrom 4 true [] emptyKeyStream = [⟨[], [1], false, 5⟩, ⟨[97], [3], false, 1⟩] :=
  ⟨by decide, (merge_loop_keeps 4 true 1000 (by decide)).1, by decide⟩

end Keystone
