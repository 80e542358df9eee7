/-
  The newest version of a key at a point in time.

  Items carry a key and a stamp from a linear order; `newest key stamp k s l` is the item of
  `k` with the largest stamp that is at most `s`. The rules say when an item is the newest
  (`newest_eq_some_iff`), that only the set of items matters where equal (key, stamp) pairs
  are equal items (`newest_congr`), how it splits over a list in which one part is never
  older than the other (`newest_append_of_newer`) or has a copy of what is newer
  (`newest_append_of_covers`), and that on a list sorted by key and by
  falling stamp it is the first hit (`newest_eq_find`).
-/
import Mathlib

namespace Newest

variable {ε κ σ : Type*} [DecidableEq κ] [LinearOrder σ] {key : ε → κ} {stamp : ε → σ}

/-- The newest item of `k` with stamp at most `s`. -/
def newest (key : ε → κ) (stamp : ε → σ) (k : κ) (s : σ) (l : List ε) : Option ε :=
  (l.filter fun e => key e = k ∧ stamp e ≤ s).argmax stamp

/-- `e` is in `l`, is a version of `k` visible at `s`, and no such version is newer. -/
structure IsNewest (key : ε → κ) (stamp : ε → σ) (k : κ) (s : σ) (l : List ε) (e : ε) :
    Prop where
  mem : e ∈ l
  key_eq : key e = k
  le : stamp e ≤ s
  max : ∀ e' ∈ l, key e' = k → stamp e' ≤ s → stamp e' ≤ stamp e

/-- Items with equal key and equal stamp are equal. -/
def Unique (key : ε → κ) (stamp : ε → σ) (l : List ε) : Prop :=
  ∀ a ∈ l, ∀ b ∈ l, key a = key b → stamp a = stamp b → a = b

omit [DecidableEq κ] [LinearOrder σ] in
theorem Unique.subset {l l' : List ε} (h : Unique key stamp l) (hs : ∀ e ∈ l', e ∈ l) :
    Unique key stamp l' :=
  fun a ha b hb => h a (hs a ha) b (hs b hb)

theorem isNewest_of_newest {k : κ} {s : σ} {l : List ε} {e : ε}
    (h : newest key stamp k s l = some e) : IsNewest key stamp k s l e := by
  have hmem := List.argmax_mem (Option.mem_def.2 h)
  simp only [List.mem_filter, decide_eq_true_eq] at hmem
  refine ⟨hmem.1, hmem.2.1, hmem.2.2, fun e' he' hk hs => ?_⟩
  exact List.le_of_mem_argmax (List.mem_filter.2 ⟨he', by simp [hk, hs]⟩) (Option.mem_def.2 h)

theorem newest_eq_none_iff {k : κ} {s : σ} {l : List ε} :
    newest key stamp k s l = none ↔ ∀ e ∈ l, key e = k → ¬ stamp e ≤ s := by
  simp [newest, List.argmax_eq_none, List.filter_eq_nil_iff]

theorem newest_eq_some_iff {k : κ} {s : σ} {l : List ε} (hu : Unique key stamp l) {e : ε} :
    newest key stamp k s l = some e ↔ IsNewest key stamp k s l e := by
  refine ⟨isNewest_of_newest, fun h => ?_⟩
  cases hn : newest key stamp k s l with
  | none => exact absurd h.le (newest_eq_none_iff.1 hn e h.mem h.key_eq)
  | some e' =>
    have h' := isNewest_of_newest hn
    have hst : stamp e' = stamp e :=
      le_antisymm (h.max e' h'.mem h'.key_eq h'.le) (h'.max e h.mem h.key_eq h.le)
    rw [hu e' h'.mem e h.mem (h'.key_eq.trans h.key_eq.symm) hst]

/-- The newest item depends on the set of items only. -/
theorem newest_congr {k : κ} {s : σ} {l l' : List ε} (hu : Unique key stamp l)
    (hm : ∀ e, key e = k → (e ∈ l ↔ e ∈ l')) :
    newest key stamp k s l = newest key stamp k s l' := by
  cases hn : newest key stamp k s l with
  | none =>
    rw [newest_eq_none_iff] at hn
    symm
    rw [newest_eq_none_iff]
    exact fun e he hk => hn e ((hm e hk).2 he) hk
  | some e =>
    have h := isNewest_of_newest hn
    cases hn' : newest key stamp k s l' with
    | none =>
      exact absurd h.le (newest_eq_none_iff.1 hn' e ((hm e h.key_eq).1 h.mem) h.key_eq)
    | some e' =>
      have h' := isNewest_of_newest hn'
      have hm' := (hm e' h'.key_eq).2 h'.mem
      have hst : stamp e = stamp e' :=
        le_antisymm (h'.max e ((hm e h.key_eq).1 h.mem) h.key_eq h.le)
          (h.max e' hm' h'.key_eq h'.le)
      rw [hu e h.mem e' hm' (h.key_eq.trans h'.key_eq.symm) hst]

omit [DecidableEq κ] in
/-- Versions that come strictly newest first are unique. -/
theorem unique_of_pairwise {l : List ε}
    (hs : l.Pairwise fun a b => key a = key b → stamp b < stamp a) : Unique key stamp l := by
  induction l with
  | nil => simp [Unique]
  | cons c l ih =>
    rw [List.pairwise_cons] at hs
    intro a ha b hb hk hst
    rcases List.mem_cons.1 ha with rfl | ha' <;> rcases List.mem_cons.1 hb with rfl | hb'
    · rfl
    · exact absurd hst (hs.1 b hb' hk).ne'
    · exact absurd hst (hs.1 a ha' hk.symm).ne
    · exact ih hs.2 a ha' b hb' hk hst

/-- On a list where the versions of a key come newest first, the newest is the first hit. -/
theorem newest_eq_find {k : κ} {s : σ} {l : List ε}
    (hs : l.Pairwise fun a b => key a = key b → stamp b ≤ stamp a) :
    newest key stamp k s l = l.find? fun e => key e = k ∧ stamp e ≤ s := by
  induction l with
  | nil => rfl
  | cons a l ih =>
    rw [List.pairwise_cons] at hs
    by_cases ha : key a = k ∧ stamp a ≤ s
    · rw [List.find?_cons_of_pos (by simpa using ha), newest,
        List.filter_cons_of_pos (by simpa using ha), List.argmax_cons]
      cases hn : (l.filter fun e => decide (key e = k ∧ stamp e ≤ s)).argmax stamp with
      | none => rfl
      | some c =>
        have hc := isNewest_of_newest (l := l) hn
        have hle := hs.1 c hc.mem (ha.1.trans hc.key_eq.symm)
        simp [not_lt.2 hle]
    · rw [List.find?_cons_of_neg (by simpa using ha), ← ih hs.2]
      unfold newest
      rw [List.filter_cons_of_neg (by simpa using ha)]

/-- Two groups of items of which the first has whatever is newer than one of its own: a hit in the
    first one decides. -/
theorem newest_append_of_covers {k : κ} {s : σ} {l r : List ε}
    (hn : ∀ a ∈ l, ∀ b ∈ r, key a = k → key b = k → stamp b ≤ stamp a ∨ b ∈ l)
    (hu : Unique key stamp (l ++ r)) :
    newest key stamp k s (l ++ r) = (newest key stamp k s l).or (newest key stamp k s r) := by
  cases h : newest key stamp k s l with
  | some e =>
    have hl := isNewest_of_newest h
    rw [Option.some_or, newest_eq_some_iff hu]
    refine ⟨List.mem_append_left r hl.mem, hl.key_eq, hl.le, fun e' he' hk hs => ?_⟩
    rcases List.mem_append.1 he' with he' | he'
    · exact hl.max e' he' hk hs
    · rcases hn e hl.mem e' he' hl.key_eq hk with hle | he'
      · exact hle
      · exact hl.max e' he' hk hs
  | none =>
    rw [newest_eq_none_iff] at h
    rw [Option.none_or]
    unfold newest
    rw [List.filter_append]
    have : l.filter (fun e => decide (key e = k ∧ stamp e ≤ s)) = [] := by
      rw [List.filter_eq_nil_iff]
      intro e he
      simp only [decide_eq_true_eq, not_and]
      exact h e he
    rw [this, List.nil_append]

/-- Two groups of items of which the first is never older: a hit in the first one decides. -/
theorem newest_append_of_newer {k : κ} {s : σ} {l r : List ε}
    (hn : ∀ a ∈ l, ∀ b ∈ r, key a = k → key b = k → stamp b ≤ stamp a)
    (hu : Unique key stamp (l ++ r)) :
    newest key stamp k s (l ++ r) = (newest key stamp k s l).or (newest key stamp k s r) :=
  newest_append_of_covers (fun a ha b hb hka hkb => Or.inl (hn a ha b hb hka hkb)) hu

end Newest
